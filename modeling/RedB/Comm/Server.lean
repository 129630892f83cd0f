import RedB.Comm.Fsm

/-!
# The server of a connection

The loop receives messages until the flag is cleared. A statement sends its result in messages
while it runs, and after each of them that is not the last the callback of its `vm` runs the loop
again, for the acknowledgement.

Loops have fuel for the messages that they receive. The rest of the server is in a world of its
own: keys, tables and files are asked there.
-/

namespace RedB.Comm

/-- What is thrown. -/
inductive Exn where
  /-- `std::runtime_error`, with its text -/
  | runtime (what : List UInt8)
  /-- any other `std::exception` -/
  | exception
deriving DecidableEq, Repr

/-- Why a run stops before its end. -/
inductive Stop where
  | thrown (e : Exn)
  /-- The fuel of a loop is used up. -/
  | fuel
deriving DecidableEq, Repr

/-- What a statement does with its connection. -/
inductive Act where
  | reset
  | resetOp (opcode : ℕ)
  | resetType (opcode type : ℕ)
  | put (buf : List UInt8)
  | flush
  /-- `vm::fsm_flush` -/
  | fsmFlush
deriving DecidableEq, Repr

/-- A statement that is run. -/
inductive Stmt where
  /-- `sql::compile_stmt` throws. -/
  | malformed (e : Exn)
  /-- The `vm` does this, and then it returns by `ret` or it throws. -/
  | program (acts : List Act) (e : Option Exn)
deriving DecidableEq, Repr

/-- The rest of the server. -/
structure Backend (W : Type) where
  /-- What `srvcry::pubkey_to_buffer` writes, nothing if there is no key. -/
  pubkey : Option (List UInt8)
  /-- `decrypt_stmt` -/
  decrypt : List UInt8 → W → Except Exn (List UInt8) × W
  /-- The hash of the password and the search for the account, of `authenticate`. -/
  lookup : List UInt8 → List UInt8 → W → Except Exn Bool × W
  /-- The lines of the file that a SOURCE command names; nothing if the text is no such command. -/
  source : List UInt8 → W → Option (Except Exn (List (List UInt8))) × W
  /-- `sql::compile_stmt` and `vm::run` -/
  exec : List UInt8 → W → Stmt × W

/-- What is noted of a session. -/
inductive Event where
  | accepted
  | rejected
  /-- An `OP_AUTH_SYN` that cannot be decrypted. -/
  | failed (e : Exn)
  /-- An `OP_STMT_SYN` is run. -/
  | statement
deriving DecidableEq, Repr

/-- The session of a connection. -/
structure Session (W : Type) extends Fsm where
  world : W
  trace : List Event

variable {W : Type}

/-- A part of the server. -/
abbrev M (W : Type) : Type → Type := EStateM Stop (Session W)

namespace Session

/-- A step of the connection. -/
def onFsm (f : Fsm → Fsm) (s : Session W) : Session W := { s with toFsm := f s.toFsm }

/-- An event is noted. -/
def note (e : Event) (s : Session W) : Session W := { s with trace := s.trace ++ [e] }

end Session

variable (peer : Msg → List Msg)

/-! ### Sending -/

/-- The callback of the connection: `vm::fsm_flush_cb`, that is `cont` and the loop, or an empty
function, that throws. -/
def flushCb (nested : M W Unit) : M W Unit := do
  if (← get).flushCb then
    modify (Session.onFsm Fsm.cont)
    nested
  else throw (.thrown .exception)

/-- `fsm::flush` -/
def flush (nested : M W Unit) : M W Unit := do
  modify (Session.onFsm fun s => s.send peer)
  modify (Session.onFsm Fsm.reset)
  let s ← get
  if s.isServer ∧ s.opsent = OP_RSLT_SYN then flushCb nested

/-- `fsm::put` -/
def put (nested : M W Unit) : List UInt8 → M W Unit
  | [] => pure ()
  | b :: buf => do
    if (← get).size = BUFFER_SZ then flush peer nested
    modify (Session.onFsm fun s => s.putByte b)
    put nested buf

/-! ### Statements -/

/-- `vm::fsm_flush`, of a `vm` with this opcode -/
def fsmFlush (nested : M W Unit) (opcode : ℕ) : M W Unit := do
  modify (Session.onFsm fun s => s.setOpcode (if opcode = OP_NULL then OP_RSLT_FIN else opcode))
  flush peer nested

def act (nested : M W Unit) (opcode : ℕ) : Act → M W Unit
  | .reset => modify (Session.onFsm Fsm.reset)
  | .resetOp op => modify (Session.onFsm fun s => s.resetOp op)
  | .resetType op type => modify (Session.onFsm fun s => s.resetType op type)
  | .put buf => put peer nested buf
  | .flush => flush peer nested
  | .fsmFlush => fsmFlush peer nested opcode

/-- The instructions of a program, as far as they use the connection. -/
def acts (nested : M W Unit) (opcode : ℕ) : List Act → M W Unit
  | [] => pure ()
  | a :: as => do
    act peer nested opcode a
    acts nested opcode as

/-- `vm::ret` -/
def ret : M W Unit := modify (Session.onFsm fun s => (s.setFlushCb false).cont)

variable (B : Backend W)

/-- A statement is compiled and a `vm` with this opcode is made for it and run. -/
def vmRun (nested : M W Unit) (opcode : ℕ) (text : List UInt8) : M W Unit := do
  let s ← get
  let (stmt, w) := B.exec text s.world
  set { s with world := w }
  match stmt with
  | .malformed e => throw (.thrown e)
  | .program as e => do
    modify (Session.onFsm fun s => s.setFlushCb true)
    acts peer nested opcode as
    match e with
    | none => ret
    | some e => throw (.thrown e)

/-! ### Messages -/

/-- `report_error` -/
def reportError (nested : M W Unit) (what : List UInt8) (opcode : ℕ) : M W Unit := do
  modify (Session.onFsm fun s => s.resetOp opcode)
  put peer nested (what ++ [10])
  flush peer nested

/-- `try`, with a clause for `std::runtime_error` and one for `std::exception` that writes to the log. -/
def tryCatch {α : Type} (x : M W α) (onRuntime : List UInt8 → M W α) (onException : α) : M W α := fun s =>
  match x s with
  | .error (.thrown (.runtime what)) s' => onRuntime what s'
  | .error (.thrown .exception) s' => .ok onException s'
  | r => r

/-- `authenticate` -/
def authenticate (nested : M W Unit) (username password : List UInt8) : M W Bool :=
  tryCatch
    (do
      let s ← get
      let (r, w) := B.lookup username password s.world
      set { s with world := w }
      match r with
      | .ok found => pure found
      | .error e => throw (.thrown e))
    (fun what => do
      reportError peer nested what OP_AUTH_ERR
      pure false) false

/-- The loop over the statements of a file, of `exec_source`. -/
def sourceLoop (nested : M W Unit) : List (List UInt8) → M W Unit
  | [] => pure ()
  | stmt :: stmts => do
    vmRun peer B nested (if stmts = [] then OP_NULL else OP_RSLT_SYN) stmt
    sourceLoop nested stmts

/-- The `try` block of `exec_source`. -/
def trySource (nested : M W Unit) (stmt : List UInt8) : M W Bool := do
  let s ← get
  let (r, w) := B.source stmt s.world
  set { s with world := w }
  match r with
  | none => pure false
  | some (.error e) => throw (.thrown e)
  | some (.ok lines) => do
    sourceLoop peer B nested (lines.filter fun line => line ≠ [])
    pure true

/-- `exec_source` -/
def execSource (nested : M W Unit) (stmt : List UInt8) : M W Bool :=
  tryCatch (trySource peer B nested stmt)
    (fun what => do
      reportError peer nested what OP_STMT_ERR
      pure true) true

/-- `get_encrypted_stmt`, of what has been decrypted: the text to its first semicolon. -/
def firstStmt (stmt : List UInt8) : List UInt8 := stmt.takeWhile (· ≠ 59) ++ [59]

/-- The text of a statement: decrypted, or as it is. -/
def stmtText : M W (List UInt8) := do
  let s ← get
  if s.getType = TYPE_ENC then do
    let (r, w) := B.decrypt s.data s.world
    set { s with world := w }
    match r with
    | .ok stmt => pure (firstStmt stmt)
    | .error e => throw (.thrown e)
  else pure s.data

/-- The user name and the password: the texts to the first and to the second blank. -/
def credentials (cred : List UInt8) : List UInt8 × List UInt8 :=
  (cred.takeWhile (· ≠ 32), ((cred.dropWhile (· ≠ 32)).drop 1).takeWhile (· ≠ 32))

/-- The credentials of an `OP_AUTH_SYN`. -/
def decryptCred : M W (List UInt8) := do
  let s ← get
  let (r, w) := B.decrypt s.data s.world
  set { s with world := w }
  match r with
  | .ok cred => pure cred
  | .error e => do
    modify (Session.note (.failed e))
    throw (.thrown e)

/-- The case `OP_TERM_SYN` of `rcvd`. -/
def rcvdTerm (nested : M W Unit) : M W Unit :=
  tryCatch
    (do
      modify (Session.onFsm fun s => s.resetOp OP_TERM_ACK)
      flush peer nested
      modify (Session.onFsm Fsm.term))
    (fun _ => pure ()) ()

/-- What `srvcry::pubkey_to_buffer` writes: a key that fits, or nothing. Without a key the buffer
keeps what it has. -/
def pubkeyToBuffer (s : Fsm) : List UInt8 :=
  match B.pubkey with
  | some key => if key.length ≤ s.remaining then key else []
  | none => (List.range s.remaining).map fun i => s.buffer (OPCODE_SZ + i)

/-- The key in the buffer. -/
def putKey (s : Fsm) : Fsm :=
  let key := pubkeyToBuffer B s
  { s with
    buffer := fun i => if i < OPCODE_SZ then s.buffer i else key.getD (i - OPCODE_SZ) (s.buffer i)
    size := if key.length > OPCODE_SZ then s.size + key.length else s.size }

/-- The case `OP_CONN_SYN` of `rcvd`. -/
def rcvdConn (nested : M W Unit) : M W Unit := do
  modify (Session.onFsm fun s => s.resetType OP_CONN_ACK TYPE_TXT)
  modify (Session.onFsm (putKey B))
  flush peer nested

/-- The case `OP_AUTH_SYN` of `rcvd`. -/
def rcvdAuth (nested : M W Unit) : M W Unit :=
  tryCatch
    (do
      let cred ← decryptCred B
      if ← authenticate peer B nested (credentials cred).1 (credentials cred).2 then do
        modify (Session.note .accepted)
        modify (Session.onFsm fun s => s.resetOp OP_AUTH_ACK)
        flush peer nested
      else do
        modify (Session.note .rejected)
        modify (Session.onFsm fun s => s.resetOp OP_AUTH_ERR)
        flush peer nested
        modify (Session.onFsm Fsm.term))
    (fun what => reportError peer nested what OP_AUTH_ERR) ()

/-- The case `OP_STMT_SYN` of `rcvd`. -/
def rcvdStmt (nested : M W Unit) : M W Unit := do
  modify (Session.note .statement)
  tryCatch
    (do
      let stmt ← stmtText B
      if ← execSource peer B nested stmt then pure ()
      else vmRun peer B nested OP_RSLT_FIN stmt)
    (fun what => reportError peer nested what OP_STMT_ERR) ()

/-- `rcvd` -/
def rcvd (nested : M W Unit) : M W Unit := do
  match (← get).getOpcode with
  | 1 => rcvdTerm peer nested
  | 2 => modify (Session.onFsm Fsm.term)
  | 3 => modify (Session.onFsm Fsm.term)
  | 4 => rcvdConn peer B nested
  | 5 => rcvdAuth peer B nested
  | 6 => rcvdStmt peer B nested
  | _ => pure ()

/-- `fsm::loop` -/
def loop : ℕ → M W Unit
  | 0 => throw .fuel
  | fuel + 1 => do
    if (← get).loop then do
      modify (Session.onFsm Fsm.recv)
      let s ← get
      if s.size = 0 then pure ()
      else do
        match dispatch srvFsm s.opsent s.getOpcode with
        | .nop => modify (Session.onFsm Fsm.term)
        | .rcvd => rcvd peer B (loop fuel)
        loop fuel
    else pure ()

end RedB.Comm
