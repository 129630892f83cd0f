import RedB.Comm.Answer
import RedB.Theory.Actions

/-!
# Console and server

The console has two threads on one connection: one sends the statements of a line, the other is in the
loop that receives. Both use the same buffer. The server has one thread. What a thread still has to do is
a list of operations, and a step is the first of them; so the loop of an acknowledgement is put in front
of what is left of the result.

Of what is sent and run it is noted: the statements that the server has run, the bytes that have been put
for each message, and what the console has shown.
-/

namespace RedB.Comm

/-! ### Lines -/

/-- The loop of `parse_line`, with the statement as far as it is. -/
def parseLineFrom : List UInt8 → List UInt8 → List (List UInt8)
  | _, [] => []
  | stmt, ch :: line =>
    if ch = 59 then
      if stmt ++ [ch] ≠ [59] then (stmt ++ [ch]) :: parseLineFrom [] line else parseLineFrom [] line
    else parseLineFrom (stmt ++ [ch]) line

/-- `parse_line` -/
def parseLine (line : List UInt8) : List (List UInt8) := parseLineFrom [] line

/-- The encryption of the console and what the server has for it. -/
structure Cipher where
  /-- `do_encrypt` -/
  secret : List UInt8 → Bool
  /-- `encrypt_stmt`, with the room for its result. -/
  encrypt : ℕ → List UInt8 → Option (List UInt8)
  /-- `decrypt_stmt` -/
  decrypt : List UInt8 → Except Exn (List UInt8)
  /-- The result keeps to the room. -/
  fits : ∀ {n stmt code}, encrypt n stmt = some code → code.length ≤ n
  /-- It is the text of an expression. -/
  nonempty : ∀ {n stmt code}, encrypt n stmt = some code → code ≠ []
  /-- The server can take it apart; what it gets is the statement if the key is long enough for it. -/
  opens : ∀ {n stmt code}, encrypt n stmt = some code → ∃ stmt', decrypt code = .ok stmt'

/-! ### Operations -/

/-- What a thread does with a connection. -/
inductive Op where
  /-- `fsm::loop` -/
  | loop
  | reset
  | resetOp (opcode : ℕ)
  | resetType (opcode type : ℕ)
  | setType (type : ℕ)
  | put (buf : List UInt8)
  /-- A byte is put, the buffer not being looked at. -/
  | store (b : UInt8)
  | flush
  /-- `vm::fsm_flush`, of a `vm` with this opcode -/
  | fsmFlush (opcode : ℕ)
  | send
  /-- The end of `fsm::flush`. -/
  | callback
  | cont
  | term
  /-- The statement of the line is encrypted into the buffer. -/
  | encrypt (stmt : List UInt8)
  /-- The statement in the buffer is run. -/
  | exec
  /-- What is in the buffer is shown. -/
  | print
deriving DecidableEq, Repr

/-- What a `vm` does. -/
def Act.op (opcode : ℕ) : Act → Op
  | .reset => .reset
  | .resetOp op => .resetOp op
  | .resetType op type => .resetType op type
  | .put buf => .put buf
  | .flush => .flush
  | .fsmFlush => .fsmFlush opcode

/-- The size is set to that of a message without data. -/
def Op.IsReset : Op → Prop
  | .reset | .resetOp _ | .resetType _ _ => True
  | _ => False

instance : DecidablePred Op.IsReset := fun op => by cases op <;> unfold Op.IsReset <;> infer_instance

/-- Operations for output, and `vm::ret`. -/
def Op.IsOutput : Op → Prop
  | .reset | .resetOp _ | .resetType _ _ | .put _ | .flush | .fsmFlush _ | .cont => True
  | _ => False

instance : DecidablePred Op.IsOutput := fun op => by cases op <;> unfold Op.IsOutput <;> infer_instance

/-- What the server does with the connection for a statement: a `vm`, or one after the other for the
lines of a file, or the report of an error. It starts with a `reset`. -/
structure Program where
  ops : List Op
  output : ∀ op ∈ ops, op.IsOutput
  starts : ∀ op ∈ ops.head?, op.IsReset

/-- What is behind a connection. -/
structure Env where
  cipher : Cipher
  /-- The output of a statement, with the number of statements before it. -/
  program : ℕ → List UInt8 → Program

/-- A connection, with what is noted. -/
structure Conn extends Fsm where
  /-- What has been put since the size was set. -/
  fresh : List UInt8
  /-- The messages that have been sent, each with what had been put for it. -/
  log : List (Msg × List UInt8)
  /-- The statements that have been run. -/
  ran : List (List UInt8)
  /-- What has been shown. -/
  shown : List (List UInt8)

namespace Conn

variable (x : Conn)

/-- A step of the connection by which nothing is put. -/
def onFsm (f : Fsm → Fsm) : Conn := { x with toFsm := f x.toFsm }

/-- A step of the connection that sets its size. -/
def anew (f : Fsm → Fsm) : Conn := { x with toFsm := f x.toFsm, fresh := [] }

/-- A byte is put. -/
def store (b : UInt8) : Conn := { x with toFsm := x.toFsm.putByte b, fresh := x.fresh ++ [b] }

/-- The encrypted statement is written to `begin` and the size is set. -/
def fill (code : List UInt8) : Conn :=
  { x with
    buffer := fun i => if i < OPCODE_SZ then x.buffer i else code.getD (i - OPCODE_SZ) (x.buffer i)
    size := x.size + code.length
    fresh := x.fresh ++ code }

/-- `sndrcv::send` -/
def sends : Conn := { x with toFsm := x.toFsm.send fun _ => [], log := x.log ++ [(x.contents, x.fresh)] }

/-- Messages come in. -/
def deliver (msgs : List Msg) : Conn := { x with inbox := x.inbox ++ msgs }

/-- The console shows the data up to its first zero, and puts one behind it. -/
def print : Conn :=
  { x with buffer := Function.update x.buffer x.size 0, shown := x.shown ++ [x.data.takeWhile (· ≠ 0)] }

/-- `rcvd` of the console, as far as it uses the connection. -/
def cliRcvd : List Op :=
  match x.getOpcode with
  | 1 => [.resetOp OP_TERM_ACK, .flush, .term]
  | 2 => [.term]
  | 3 => [.print, .resetType OP_RSLT_ACK TYPE_TXT, .flush]
  | 4 => [.print]
  | 5 | 6 | 7 | 8 => [.term]
  | 9 => [.print]
  | _ => []

/-- `rcvd` of the server, on a connection that has been authenticated. -/
def srvRcvd : List Op :=
  match x.getOpcode with
  | 1 => [.resetOp OP_TERM_ACK, .flush, .term]
  | 2 => [.term]
  | 3 => [.term]
  | 6 => [.exec]
  | _ => []

/-- The table of the connection. -/
def table : List (List Handler) := if x.isServer then srvFsm else cliFsm

/-- What is done with the message in the buffer. -/
def handle : List Op :=
  match dispatch x.table x.opsent x.getOpcode with
  | .nop => [.term]
  | .rcvd => if x.isServer then x.srvRcvd else x.cliRcvd

/-- The text of the statement in the buffer. -/
def text (C : Cipher) : Except Exn (List UInt8) :=
  if x.getType = TYPE_ENC then (C.decrypt x.data).map firstStmt else .ok x.data

end Conn

/-- `report_error` -/
def reportOps : Exn → List Op
  | .runtime what => [.resetOp OP_STMT_ERR, .put (what ++ [10]), .flush]
  | .exception => []

/-! ### Steps -/

/-- An operation: the connection after it, what is to be done then, and what is sent. In the loop nothing
can be done while no message is there. -/
def Op.turn (E : Env) (x : Conn) (k : List Op) : Op → Option (Conn × List Op × List Msg)
  | .loop =>
    if x.loop then
      if x.inbox = [] then none
      else
        let y := x.anew Fsm.recv
        if y.size = 0 then some (y, k, []) else some (y, y.handle ++ .loop :: k, [])
    else some (x, k, [])
  | .reset => some (x.anew Fsm.reset, k, [])
  | .resetOp opcode => some (x.anew fun s => s.resetOp opcode, k, [])
  | .resetType opcode type => some (x.anew fun s => s.resetType opcode type, k, [])
  | .setType type => some (x.onFsm fun s => s.setType type, k, [])
  | .put [] => some (x, k, [])
  | .put (b :: buf) =>
    if x.size = BUFFER_SZ then some (x, .send :: .reset :: .callback :: .store b :: .put buf :: k, [])
    else some (x.store b, .put buf :: k, [])
  | .store b => some (x.store b, k, [])
  | .flush => some (x, .send :: .reset :: .callback :: k, [])
  | .fsmFlush opcode =>
    some (x.onFsm fun s => s.setOpcode (if opcode = OP_NULL then OP_RSLT_FIN else opcode), .send :: .reset :: .callback :: k, [])
  | .send => some (x.sends, k, [x.contents])
  | .callback => some (x, if x.isServer ∧ x.opsent = OP_RSLT_SYN then .cont :: .loop :: k else k, [])
  | .cont => some (x.onFsm Fsm.cont, k, [])
  | .term => some (x.onFsm Fsm.term, k, [])
  | .encrypt stmt =>
    match E.cipher.encrypt x.remaining stmt with
    | some code => some (x.fill code, k, [])
    | none => some (x, [], [])
  | .exec =>
    match x.text E.cipher with
    | .ok stmt => some ({ x with ran := x.ran ++ [stmt] }, (E.program x.ran.length stmt).ops ++ k, [])
    | .error e => some (x, reportOps e ++ k, [])
  | .print => some (x.print, k, [])

/-- The threads. -/
inductive Thread where
  /-- The loop over the statements of a line, of the console. -/
  | input
  /-- `cli_agent` -/
  | agent
  | server
deriving DecidableEq, Repr

/-- Console and server. -/
structure System where
  c : Conn
  s : Conn
  input : List Op
  agent : List Op
  server : List Op

namespace System

/-- A step of a thread, nothing if it has to wait. -/
def step (E : Env) (σ : System) : Thread → Option System
  | .input =>
    match σ.input with
    | [] => none
    | op :: k => (op.turn E σ.c k).map fun t => { σ with c := t.1, input := t.2.1, s := σ.s.deliver t.2.2 }
  | .agent =>
    match σ.agent with
    | [] => none
    | op :: k => (op.turn E σ.c k).map fun t => { σ with c := t.1, agent := t.2.1, s := σ.s.deliver t.2.2 }
  | .server =>
    match σ.server with
    | [] => none
    | op :: k => (op.turn E σ.s k).map fun t => { σ with s := t.1, server := t.2.1, c := σ.c.deliver t.2.2 }

end System

/-- What the console does for a statement. -/
def stmtOps (C : Cipher) (stmt : List UInt8) : List Op :=
  .resetType OP_STMT_SYN TYPE_TXT ::
    (if C.secret stmt then [.setType TYPE_ENC, .encrypt stmt, .flush] else [.put stmt, .flush])

/-- What the console does for a line. -/
def lineOps (C : Cipher) (line : List UInt8) : List Op := (parseLine line).flatMap (stmtOps C)

/-- A line is at hand; both connections are in their loops. -/
def System.start (C : Cipher) (c s : Fsm) (line : List UInt8) : System where
  c := { c with fresh := [], log := [], ran := [], shown := [] }
  s := { s with fresh := [], log := [], ran := [], shown := [] }
  input := lineOps C line
  agent := [.loop]
  server := [.loop]

end RedB.Comm
