import RedB.Comm.Stream

/-!
# Answers to statements

A statement is answered by messages of a result and a last message, or by an error. The loop of
an acknowledgement clears the flag of the connection and only `ret` sets it again, and only
`ret` takes the callback of the `vm` back. So after an exception in a `vm` the connection is not
ready for the next statement, and after one that is not a `std::runtime_error` there is no answer
at all.

A text is answered, and the connection is ready, if and only if the text has one statement and
that runs to its end, or the text is turned down before a `vm` is made for it, by an error that
fits into a message; and for a file, if it has statements and this is so for them
(`statement_answered_iff`).
-/

namespace RedB.Comm

open Runs Fsm

variable {W : Type} {peer : Msg → List Msg} {B : Backend W}

/-! ### Output of statements -/

/-- How far the output of a statement is: in a message that is not part of a result, with room for
the rest, or in the messages of a result. -/
inductive Mode where
  | status (size : ℕ)
  | stream
deriving DecidableEq, Repr

/-- What a statement may do with its connection. -/
def Mode.next : Mode → Act → Option Mode
  | .status _, .reset => some (.status OPCODE_SZ)
  | .stream, .reset => some .stream
  | _, .resetOp op => if op = OP_RSLT_SYN then some .stream else none
  | _, .resetType op _ => if op = OP_RSLT_SYN then some .stream else none
  | .status n, .put buf => if n + buf.length ≤ BUFFER_SZ then some (.status (n + buf.length)) else none
  | .stream, .put _ => some .stream
  | .status _, .flush => none
  | .stream, .flush => some .stream
  | _, .fsmFlush => some (.status BUFFER_SZ)

/-- A statement keeps to this, and when it comes to its end nothing is left to be sent. -/
def Stmt.Proper : Stmt → Prop
  | .malformed _ => True
  | .program as e => (as.foldlM Mode.next (.status BUFFER_SZ)).isSome ∧ (e = none → as = [] ∨ as.getLast? = some .fsmFlush)

/-- The output of most statements. -/
def statusActs (status : List UInt8) : List Act := [.reset, .put status, .fsmFlush]

/-- The output of `vm::load_data`: notes on lines that are turned down and dots, and a status. -/
def loadActs (notes : List (List UInt8)) (status : List UInt8) : List Act :=
  notes.flatMap (fun note => [.resetOp OP_RSLT_SYN, .put note, .flush]) ++ statusActs status

/-- The output of `vm::select` and of the statements that show tables. If there is no room for the last line, the
message is flushed; `vm::show_databases` and `vm::show_tables` reset it, too. -/
def tableActs (lines : List (List UInt8)) (full resets : Bool) (footer : List UInt8) : List Act :=
  .reset :: .resetType OP_RSLT_SYN TYPE_TXT :: lines.map .put ++ (if full then .flush :: if resets then [.reset] else [] else []) ++
    [.put footer, .fsmFlush]

/-! ### Answers -/

/-- A client that acknowledges each message of a result that is not its last and is quiet
otherwise. -/
def Acknowledges (peer : Msg → List Msg) : Prop :=
  Answers peer ∧ ∀ m, opcodeOf m ≠ OP_RSLT_SYN → peer m = []

/-- The connection waits for a statement, and nothing has been received. -/
structure Ready (s : Fsm) : Prop where
  server : s.isServer = true
  loop : s.loop = true
  flushCb : s.flushCb = false
  inbox : s.inbox = []
  low : OPCODE_SZ ≤ s.size
  high : s.size ≤ BUFFER_SZ

/-- A statement has been answered, and the next one will be handled. -/
structure Answered (s s' : Fsm) : Prop where
  answer : ∃ k op msgs, s'.sent = s.sent ++ msgs ∧ (op = OP_RSLT_FIN ∨ op = OP_STMT_ERR) ∧
    msgs.map opcodeOf = List.replicate k OP_RSLT_SYN ++ [op]
  loop : s'.loop = true
  flushCb : s'.flushCb = false
  next : dispatch srvFsm s'.opsent OP_STMT_SYN = .rcvd

/-- What becomes of a text. -/
inductive Fate where
  /-- All of it has been run, with so many statements. -/
  | done (count : ℕ)
  /-- Something is thrown, in a `vm` or before one is made. -/
  | thrown (e : Exn) (inVm : Bool)
deriving DecidableEq, Repr

def Stmt.fate : Stmt → Fate
  | .malformed e => .thrown e false
  | .program as none => .done (as.count .fsmFlush)
  | .program _ (some e) => .thrown e true

/-- What becomes of the statements of a file. -/
def linesFate (B : Backend W) : List (List UInt8) → W → Fate
  | [], _ => .done 0
  | stmt :: stmts, w =>
    match (B.exec stmt w).1.fate with
    | .done count => if stmts = [] then .done count else linesFate B stmts (B.exec stmt w).2
    | .thrown e inVm => .thrown e inVm

def textFate (B : Backend W) (text : List UInt8) (w : W) : Fate :=
  match B.source text w with
  | (none, w) => (B.exec text w).1.fate
  | (some (.error e), _) => .thrown e false
  | (some (.ok lines), w) => linesFate B (lines.filter fun line => line ≠ []) w

/-- What becomes of the message in the buffer. -/
def messageFate (B : Backend W) (s : Session W) : Fate :=
  if s.getType = TYPE_ENC then
    match B.decrypt s.data s.world with
    | (.ok stmt, w) => textFate B (firstStmt stmt) w
    | (.error e, _) => .thrown e false
  else textFate B s.data s.world

/-- The last text has one statement, or an error that fits into a message is thrown before a `vm`
is made. -/
def Fate.IsGood : Fate → Prop
  | .done count => count = 1
  | .thrown (.runtime what) false => OPCODE_SZ + what.length + 1 ≤ BUFFER_SZ
  | .thrown _ _ => False

/-! ### The forms of output -/

theorem proper_status {status : List UInt8} (h : OPCODE_SZ + status.length ≤ BUFFER_SZ) : (Stmt.program (statusActs status) none).Proper := by
  refine ⟨?_, fun _ => Or.inr rfl⟩
  simp only [statusActs, List.foldlM_cons, Mode.next, if_pos h, Option.bind_eq_bind, Option.bind_some]
  rfl

theorem foldlM_notes (notes : List (List UInt8)) (m : Mode) :
    ∃ m', (notes.flatMap fun note => [Act.resetOp OP_RSLT_SYN, .put note, .flush]).foldlM Mode.next m = some m' ∧ (m' = m ∨ m' = .stream) := by
  induction notes generalizing m with
  | nil => exact ⟨m, rfl, Or.inl rfl⟩
  | cons note notes ih =>
    obtain ⟨m', hm', hor⟩ := ih .stream
    refine ⟨m', ?_, Or.inr (by rcases hor with rfl | rfl <;> rfl)⟩
    rw [List.flatMap_cons, List.foldlM_append]
    cases m <;> exact hm'

theorem proper_load {notes : List (List UInt8)} {status : List UInt8} (h : OPCODE_SZ + status.length ≤ BUFFER_SZ) :
    (Stmt.program (loadActs notes status) none).Proper := by
  obtain ⟨m, hm, hor⟩ := foldlM_notes notes (.status BUFFER_SZ)
  refine ⟨?_, fun _ => Or.inr (by rw [loadActs, List.getLast?_append]; rfl)⟩
  rw [loadActs, List.foldlM_append, hm]
  rcases hor with rfl | rfl
  · exact (proper_status h).1
  · rfl

theorem foldlM_put (lines : List (List UInt8)) : (lines.map Act.put).foldlM Mode.next .stream = some .stream := by
  induction lines with
  | nil => rfl
  | cons line lines ih => exact ih

theorem proper_table (lines : List (List UInt8)) (full resets : Bool) (footer : List UInt8) :
    (Stmt.program (tableActs lines full resets footer) none).Proper := by
  refine ⟨?_, fun _ => Or.inr (by rw [tableActs, List.getLast?_append]; rfl)⟩
  have hlines : (Act.reset :: .resetType OP_RSLT_SYN TYPE_TXT :: lines.map Act.put).foldlM Mode.next (.status BUFFER_SZ) = some .stream :=
    foldlM_put lines
  rw [tableActs, List.foldlM_append, List.foldlM_append, hlines]
  cases full <;> cases resets <;> rfl

/-! ### What is sent -/

/-- What a mode says about the buffer. -/
def Mode.Holds : Mode → Fsm → Prop
  | .status n, s => s.size ≤ n
  | .stream, s => s.getOpcode = OP_RSLT_SYN

/-- The connection of a `vm` that runs. -/
structure Talking (m : Mode) (s : Fsm) : Prop where
  server : s.isServer = true
  flushCb : s.flushCb = true
  inbox : s.inbox = []
  low : OPCODE_SZ ≤ s.size
  high : s.size ≤ BUFFER_SZ
  mode : m.Holds s

theorem Talking.streaming {s : Fsm} (h : Talking .stream s) : Streaming s := ⟨h.server, h.flushCb, h.mode, h.inbox, h.low, h.high⟩

theorem Streaming.talking {s : Fsm} (h : Streaming s) : Talking .stream s := ⟨h.server, h.flushCb, h.inbox, h.low, h.high, h.opcode⟩

/-- The message that `fsm_flush` sends, by the opcode of the `vm`. -/
def lastOp (opcode : ℕ) : ℕ := if opcode = OP_NULL then OP_RSLT_FIN else opcode

theorem lastOp_syn : lastOp OP_RSLT_SYN = OP_RSLT_SYN := rfl

/-- From one connection to the other, messages of a result have been sent, and so many last
messages of statements. -/
structure Sent (op : ℕ) (s s' : Fsm) (msgs : List Msg) (as : List Act) : Prop where
  sent : s'.sent = s.sent ++ msgs
  opcode : ∀ m ∈ msgs, opcodeOf m = OP_RSLT_SYN ∨ opcodeOf m = op
  count : op ≠ OP_RSLT_SYN → (msgs.map opcodeOf).count op = as.count .fsmFlush
  getLast : as.getLast? = some .fsmFlush → (msgs.map opcodeOf).getLast? = some op ∧ s'.opsent = op

/-- What fits into the buffer is put without being sent. -/
theorem put_fits {nested : M W Unit} {s : Session W} (buf : List UInt8) (h : s.size + buf.length ≤ BUFFER_SZ) :
    ∃ f : Fsm, put peer nested buf s = .ok () (s.onFsm fun _ => f) ∧ f.isServer = s.isServer ∧ f.flushCb = s.flushCb ∧
      f.inbox = s.inbox ∧ f.sent = s.sent ∧ f.size = s.size + buf.length := by
  induction buf generalizing s with
  | nil => exact ⟨s.toFsm, rfl, rfl, rfl, rfl, rfl, rfl⟩
  | cons b buf ih =>
    rw [List.length_cons] at h
    have hsize : s.size + 1 + buf.length ≤ BUFFER_SZ := by omega
    obtain ⟨f, hf, hsrv, hcb, hi, hsent, hfs⟩ := ih (s := s.onFsm fun s => s.putByte b) hsize
    refine ⟨f, ?_, hsrv, hcb, hi, hsent, ?_⟩
    · rw [put_cons (by omega)]
      exact hf
    · rw [hfs, List.length_cons]
      show s.size + 1 + buf.length = _
      omega

theorem sent_nothing {op : ℕ} {s s' : Fsm} {a : Act} (hs : s'.sent = s.sent) (ha : a ≠ .fsmFlush) : Sent op s s' [] [a] where
  sent := by rw [hs, List.append_nil]
  opcode _ hm := absurd hm List.not_mem_nil
  count _ := (List.count_eq_zero.mpr fun h => ha (List.mem_singleton.mp h).symm).symm
  getLast h := absurd (Option.some.inj h) ha

theorem Streams.toSent {op : ℕ} {s s' : Fsm} {a : Act} {buf : List UInt8} {msgs : List Msg} (h : Streams s s' buf msgs)
    (ha : a ≠ .fsmFlush) : Sent op s s' msgs [a] where
  sent := h.sent
  opcode m hm := Or.inl (h.opcode m hm)
  count hop := by
    rw [List.count_eq_zero.mpr fun h => ha (List.mem_singleton.mp h).symm, List.count_eq_zero]
    intro hmem
    obtain ⟨m, hm, heq⟩ := List.mem_map.mp hmem
    exact hop (heq.symm.trans (h.opcode m hm))
  getLast h := absurd (Option.some.inj h) ha

/-- The last message of a statement, which waits if it is not the last one of its file. -/
theorem fsmFlush_talk (hp : Acknowledges peer) {opcode op : ℕ} (hop : lastOp opcode = op) (hor : op = OP_RSLT_FIN ∨ op = OP_RSLT_SYN)
    {m : Mode} {s : Session W} (h : Talking m s.toFsm) (fuel : ℕ) :
    ∃ (f : Fsm) (msg : Msg), fsmFlush peer (loop peer B (fuel + 2)) opcode s = .ok () (s.onFsm fun _ => f) ∧
      Talking (.status BUFFER_SZ) f ∧ f.sent = s.sent ++ [msg] ∧ opcodeOf msg = op ∧ f.opsent = op := by
  let s₁ := s.onFsm fun s => s.setOpcode op
  have hop₁ : s₁.getOpcode = op := getOpcode_setOpcode (by rcases hor with rfl | rfl <;> decide)
  have hmsg : opcodeOf s₁.contents = op := (@opcodeOf_contents s₁.toFsm (Nat.lt_of_lt_of_le (by decide) h.low)).trans hop₁
  have hrun : fsmFlush peer (loop peer B (fuel + 2)) opcode s = flush peer (loop peer B (fuel + 2)) s₁ := by
    rw [fsmFlush, modify_bind]
    exact congrArg (fun o => flush peer (loop peer B (fuel + 2)) (s.onFsm fun s => s.setOpcode o)) hop
  rcases hor with rfl | rfl
  · refine ⟨(s₁.send peer).reset, s₁.contents, ?_, ⟨h.server, h.flushCb, ?_, Nat.le_refl _, by show OPCODE_SZ ≤ BUFFER_SZ; decide,
      by show OPCODE_SZ ≤ BUFFER_SZ; decide⟩, rfl, hmsg, hop₁⟩
    · rw [hrun, flush_other (by rw [hop₁]; decide)]
      rfl
    · show s.inbox ++ peer s₁.contents = []
      rw [h.inbox, hp.2 _ (by rw [hmsg]; decide)]
      rfl
  · obtain ⟨f, hf, hstream, -, -, hsent, hops⟩ := flush_acknowledged (s := s₁) (B := B) hp.1
      ⟨h.server, h.flushCb, hop₁, h.inbox, h.low, h.high⟩ fuel
    refine ⟨f, s₁.contents, hrun.trans hf, ⟨hstream.server, hstream.flushCb, hstream.inbox, hstream.low, hstream.high, hstream.high⟩,
      hsent, hmsg, hops⟩

theorem act_talk (hp : Acknowledges peer) {opcode op : ℕ} (hop : lastOp opcode = op) (hor : op = OP_RSLT_FIN ∨ op = OP_RSLT_SYN)
    {m m' : Mode} {a : Act} {s : Session W} (h : Talking m s.toFsm) (hm : m.next a = some m') (fuel : ℕ) :
    ∃ (f : Fsm) (msgs : List Msg), act peer (loop peer B (fuel + 2)) opcode a s = .ok () (s.onFsm fun _ => f) ∧ Talking m' f ∧
      Sent op s.toFsm f msgs [a] := by
  have hreset : OPCODE_SZ ≤ BUFFER_SZ := by decide
  cases a with
  | reset =>
    refine ⟨s.toFsm.reset, [], rfl, ⟨h.server, h.flushCb, h.inbox, Nat.le_refl _, hreset, ?_⟩, sent_nothing rfl (by decide)⟩
    cases m with
    | status n =>
      obtain rfl := Option.some.inj hm
      exact Nat.le_refl OPCODE_SZ
    | stream =>
      obtain rfl := Option.some.inj hm
      exact h.mode
  | resetOp o =>
    have hm' : o = OP_RSLT_SYN ∧ m' = .stream := by
      cases m <;> simpa [Mode.next, eq_comm] using hm
    obtain ⟨rfl, rfl⟩ := hm'
    exact ⟨s.toFsm.resetOp OP_RSLT_SYN, [], rfl,
      ⟨h.server, h.flushCb, h.inbox, Nat.le_refl _, hreset, getOpcode_resetOp (by decide)⟩, sent_nothing rfl (by simp)⟩
  | resetType o type =>
    have hm' : o = OP_RSLT_SYN ∧ m' = .stream := by
      cases m <;> simpa [Mode.next, eq_comm] using hm
    obtain ⟨rfl, rfl⟩ := hm'
    exact ⟨s.toFsm.resetType OP_RSLT_SYN type, [], rfl,
      ⟨h.server, h.flushCb, h.inbox, Nat.le_refl _, hreset, (getOpcode_setType type).trans (getOpcode_resetOp (by decide))⟩,
      sent_nothing rfl (by simp)⟩
  | put buf =>
    cases m with
    | status n =>
      have hfit : n + buf.length ≤ BUFFER_SZ := by
        by_contra hno
        rw [Mode.next, if_neg hno] at hm
        cases hm
      rw [Mode.next, if_pos hfit] at hm
      obtain rfl := Option.some.inj hm
      have hn : s.size ≤ n := h.mode
      obtain ⟨f, hf, hsrv, hcb, hi, hsent, hsize⟩ := @put_fits _ peer (loop peer B (fuel + 2)) s buf (by omega)
      have hlow := h.low
      exact ⟨f, [], hf, ⟨hsrv.trans h.server, hcb.trans h.flushCb, hi.trans h.inbox, by omega, by omega, by show f.size ≤ _; omega⟩,
        sent_nothing hsent (by simp)⟩
    | stream =>
      obtain rfl := Option.some.inj hm
      obtain ⟨f, msgs, hf, hs⟩ := put_streams (B := B) hp.1 h.streaming fuel buf
      exact ⟨f, msgs, hf, hs.streaming.talking, hs.toSent (by simp)⟩
  | flush =>
    cases m with
    | status n => cases hm
    | stream =>
      obtain rfl := Option.some.inj hm
      obtain ⟨f, hf, hs, -⟩ := flush_streams (B := B) hp.1 h.streaming fuel
      exact ⟨f, [s.contents], hf, hs.streaming.talking, hs.toSent (by decide)⟩
  | fsmFlush =>
    have hm' : m' = .status BUFFER_SZ := by
      cases m <;> exact (Option.some.inj hm).symm
    obtain rfl := hm'
    obtain ⟨f, msg, hf, ht, hsent, hmsg, hops⟩ := fsmFlush_talk (B := B) hp hop hor h fuel
    refine ⟨f, [msg], hf, ht, ⟨hsent, fun m hm => Or.inr (by rw [List.mem_singleton.mp hm, hmsg]), fun _ => ?_, fun _ => ⟨?_, hops⟩⟩⟩
    · rw [List.map_singleton, hmsg, List.count_singleton_self]
      rfl
    · rw [List.map_singleton, hmsg]
      rfl

theorem Sent.trans {op : ℕ} {s s' s'' : Fsm} {msgs msgs' : List Msg} {as as' : List Act} (h : Sent op s s' msgs as)
    (h' : Sent op s' s'' msgs' as') (hne : as' ≠ []) : Sent op s s'' (msgs ++ msgs') (as ++ as') where
  sent := by rw [h'.sent, h.sent, List.append_assoc]
  opcode m hm := (List.mem_append.mp hm).elim (h.opcode m) (h'.opcode m)
  count hop := by rw [List.map_append, List.count_append, List.count_append, h.count hop, h'.count hop]
  getLast hlast := by
    rw [List.getLast?_append_of_ne_nil _ hne] at hlast
    obtain ⟨hl, ho⟩ := h'.getLast hlast
    refine ⟨?_, ho⟩
    rw [List.map_append, List.getLast?_append, hl]
    rfl

/-- What a `vm` does with the connection. -/
theorem acts_talk (hp : Acknowledges peer) {opcode op : ℕ} (hop : lastOp opcode = op) (hor : op = OP_RSLT_FIN ∨ op = OP_RSLT_SYN)
    {m m' : Mode} {as : List Act} {s : Session W} (h : Talking m s.toFsm) (hm : as.foldlM Mode.next m = some m') (fuel : ℕ) :
    ∃ (f : Fsm) (msgs : List Msg), acts peer (loop peer B (fuel + 2)) opcode as s = .ok () (s.onFsm fun _ => f) ∧ Talking m' f ∧
      Sent op s.toFsm f msgs as := by
  induction as generalizing m s with
  | nil =>
    obtain rfl := Option.some.inj hm
    exact ⟨s.toFsm, [], rfl, h, (List.append_nil _).symm, fun _ hm => absurd hm List.not_mem_nil, fun _ => rfl, fun h => nomatch h⟩
  | cons a as ih =>
    rw [List.foldlM_cons] at hm
    obtain ⟨m₁, hm₁, hm⟩ := Option.bind_eq_some_iff.mp hm
    obtain ⟨f, msgs, hf, ht, hsent⟩ := act_talk (B := B) hp hop hor h hm₁ fuel
    obtain ⟨f', msgs', hf', ht', hsent'⟩ := ih (s := s.onFsm fun _ => f) ht hm
    by_cases hnil : as = []
    · subst hnil
      exact ⟨f, msgs, by rw [acts, bind_run hf]; rfl, (Option.some.inj hm) ▸ ht, hsent⟩
    · refine ⟨f', msgs ++ msgs', ?_, ht', hsent.trans hsent' hnil⟩
      rw [acts, bind_run hf]
      exact hf'

/-! ### Statements -/

/-- Only messages of a result have been sent, and the connection waits. -/
structure Midway (s s' : Fsm) : Prop where
  ready : Ready s'
  answer : ∃ msgs, s'.sent = s.sent ++ msgs ∧ ∀ m ∈ msgs, opcodeOf m = OP_RSLT_SYN

/-- So many last messages have been sent, and the connection waits. -/
structure Finished (count : ℕ) (s s' : Fsm) : Prop where
  ready : Ready s'
  answer : ∃ msgs, s'.sent = s.sent ++ msgs ∧ (∀ m ∈ msgs, opcodeOf m = OP_RSLT_SYN ∨ opcodeOf m = OP_RSLT_FIN) ∧
    (msgs.map opcodeOf).count OP_RSLT_FIN = count ∧
    (count ≠ 0 → (msgs.map opcodeOf).getLast? = some OP_RSLT_FIN ∧ s'.opsent = OP_RSLT_FIN)

/-- The opcodes of messages that all have the same. -/
theorem map_opcodeOf {op : ℕ} {msgs : List Msg} (h : ∀ m ∈ msgs, opcodeOf m = op) : msgs.map opcodeOf = List.replicate msgs.length op := by
  refine List.eq_replicate_iff.mpr ⟨List.length_map _, fun c hc => ?_⟩
  obtain ⟨m, hm, rfl⟩ := List.mem_map.mp hc
  exact h m hm

theorem Midway.refl {s : Fsm} (h : Ready s) : Midway s s := ⟨h, [], (List.append_nil _).symm, fun _ hm => absurd hm List.not_mem_nil⟩

theorem Midway.trans {s s' s'' : Fsm} (h : Midway s s') (h' : Midway s' s'') : Midway s s'' := by
  obtain ⟨msgs, hs, hop⟩ := h.answer
  obtain ⟨msgs', hs', hop'⟩ := h'.answer
  exact ⟨h'.ready, msgs ++ msgs', by rw [hs', hs, List.append_assoc], fun m hm => (List.mem_append.mp hm).elim (hop m) (hop' m)⟩

theorem Midway.finished {count : ℕ} {s s' s'' : Fsm} (h : Midway s s') (h' : Finished count s' s'') : Finished count s s'' := by
  obtain ⟨msgs, hs, hop⟩ := h.answer
  obtain ⟨msgs', hs', hop', hcount, hlast⟩ := h'.answer
  refine ⟨h'.ready, msgs ++ msgs', by rw [hs', hs, List.append_assoc],
    fun m hm => (List.mem_append.mp hm).elim (fun hm => Or.inl (hop m hm)) (hop' m), ?_, fun hne => ?_⟩
  · have hzero : (msgs.map opcodeOf).count OP_RSLT_FIN = 0 := by
      rw [map_opcodeOf hop, List.count_eq_zero]
      exact fun hmem => absurd (List.eq_of_mem_replicate hmem) (by decide)
    rw [List.map_append, List.count_append, hzero, hcount, Nat.zero_add]
  · obtain ⟨hl, ho⟩ := hlast hne
    refine ⟨?_, ho⟩
    rw [List.map_append, List.getLast?_append, hl]
    rfl

/-- One last message, and it is the last one, is an answer. -/
theorem Finished.answered_iff {count : ℕ} {s s' : Fsm} (h : Finished count s s') : Answered s s' ↔ count = 1 := by
  obtain ⟨msgs, hs, hop, hcount, hlast⟩ := h.answer
  constructor
  · intro ha
    obtain ⟨k, op, msgs', hs', hor, hcodes⟩ := ha.answer
    obtain rfl := List.append_cancel_left (hs.symm.trans hs')
    have hfin : op = OP_RSLT_FIN := by
      rcases hor with rfl | rfl
      · rfl
      · have hmem : OP_STMT_ERR ∈ msgs.map opcodeOf := hcodes ▸ List.mem_append_right _ (List.mem_singleton.mpr rfl)
        obtain ⟨m, hm, heq⟩ := List.mem_map.mp hmem
        rcases hop m hm with h' | h'
        · exact absurd (h'.symm.trans heq) (by decide)
        · exact absurd (h'.symm.trans heq) (by decide)
    have hzero : (List.replicate k OP_RSLT_SYN).count OP_RSLT_FIN = 0 :=
      List.count_eq_zero.mpr fun hmem => absurd (List.eq_of_mem_replicate hmem) (by decide)
    rw [← hcount, hcodes, hfin, List.count_append, hzero, List.count_singleton_self]
  · rintro rfl
    obtain ⟨hl, ho⟩ := hlast Nat.one_ne_zero
    refine ⟨?_, h.ready.loop, h.ready.flushCb, by rw [ho]; rfl⟩
    obtain ⟨codes, hcodes⟩ := List.getLast?_eq_some_iff.mp hl
    refine ⟨codes.length, OP_RSLT_FIN, msgs, hs, Or.inl rfl, ?_⟩
    rw [hcodes, List.count_append, List.count_singleton_self, Nat.add_eq_right, List.count_eq_zero] at hcount
    have hrep : codes = List.replicate codes.length OP_RSLT_SYN := by
      refine List.eq_replicate_iff.mpr ⟨rfl, fun c hc => ?_⟩
      have hmem : c ∈ msgs.map opcodeOf := hcodes ▸ List.mem_append_left _ hc
      obtain ⟨m, hm, rfl⟩ := List.mem_map.mp hmem
      rcases hop m hm with h' | h'
      · exact h'
      · exact absurd (h' ▸ hc) hcount
    rw [hcodes, ← hrep]

/-- What is done with an exception, of `exec_source` and `rcvd`. -/
def handled (peer : Msg → List Msg) (nested : M W Unit) : Exn → M W Unit
  | .runtime what => reportError peer nested what OP_STMT_ERR
  | .exception => pure ()

/-- An error that fits is an answer, if it is thrown before a `vm` is made. -/
theorem handled_answered_iff {nested : M W Unit} {e : Exn} {inVm : Bool} {s : Fsm} {s' : Session W}
    (hvm : inVm = true → s'.flushCb = true) (hno : inVm = false → Midway s s'.toFsm) :
    ∃ f : Fsm, handled peer nested e s' = .ok () (s'.onFsm fun _ => f) ∧ (Answered s f ↔ (Fate.thrown e inVm).IsGood) := by
  cases e with
  | exception =>
    refine ⟨s'.toFsm, rfl, iff_of_false (fun ha => ?_) (by cases inVm <;> exact id)⟩
    cases inVm with
    | true => exact absurd (ha.flushCb.symm.trans (hvm rfl)) (by decide)
    | false =>
      obtain ⟨msgs, hs, hop⟩ := (hno rfl).answer
      obtain ⟨k, op, msgs', hs', hor, hcodes⟩ := ha.answer
      obtain rfl := List.append_cancel_left (hs.symm.trans hs')
      have hmem : op ∈ msgs.map opcodeOf := hcodes ▸ List.mem_append_right _ (List.mem_singleton.mpr rfl)
      rw [map_opcodeOf hop] at hmem
      rw [List.eq_of_mem_replicate hmem] at hor
      exact absurd hor (by decide)
  | runtime what =>
    obtain ⟨f, msgs, hf, hsaid, hops, hne, hlen⟩ := @reportError_said _ peer nested OP_STMT_ERR (by decide) (by decide) what s'
    refine ⟨f, hf, ?_⟩
    cases inVm with
    | true => exact iff_of_false (fun ha => absurd (ha.flushCb.symm.trans (hsaid.flushCb.trans (hvm rfl))) (by decide)) id
    | false =>
      show _ ↔ OPCODE_SZ + what.length + 1 ≤ BUFFER_SZ
      obtain ⟨msgs₁, hs₁, hop₁⟩ := (hno rfl).answer
      have hsent : f.sent = s.sent ++ (msgs₁ ++ msgs) := by rw [hsaid.sent, hs₁, List.append_assoc]
      have hcodes : (msgs₁ ++ msgs).map opcodeOf = List.replicate msgs₁.length OP_RSLT_SYN ++ List.replicate msgs.length OP_STMT_ERR := by
        rw [List.map_append, map_opcodeOf hop₁, map_opcodeOf hsaid.opcode]
      rw [← hlen]
      constructor
      · intro ha
        obtain ⟨k, op, msgs', hs', -, hcodes'⟩ := ha.answer
        obtain rfl := List.append_cancel_left (hsent.symm.trans hs')
        have hcount := congrArg (List.count OP_STMT_ERR) (hcodes.symm.trans hcodes')
        have hzero : ∀ n, (List.replicate n OP_RSLT_SYN).count OP_STMT_ERR = 0 := fun n =>
          List.count_eq_zero.mpr fun hmem => absurd (List.eq_of_mem_replicate hmem) (by decide)
        rw [List.count_append, List.count_append, hzero, hzero, List.count_replicate_self, Nat.zero_add, Nat.zero_add] at hcount
        have hle : [op].count OP_STMT_ERR ≤ 1 := List.count_le_length
        have hpos := List.length_pos_of_ne_nil hne
        omega
      · intro h1
        refine ⟨⟨msgs₁.length, OP_STMT_ERR, msgs₁ ++ msgs, hsent, Or.inr rfl, ?_⟩, hsaid.loop.trans (hno rfl).ready.loop,
          hsaid.flushCb.trans (hno rfl).ready.flushCb, by rw [hops]; rfl⟩
        rw [hcodes, h1]
        rfl

/-! ### Runs -/

/-- A run that comes to what becomes of its text. -/
def Outcome (x : M W Unit) (s : Session W) : Fate → Prop
  | .done count => ∃ s', x s = .ok () s' ∧ Finished count s.toFsm s'.toFsm
  | .thrown e inVm => ∃ s', x s = .error (.thrown e) s' ∧ (inVm = true → s'.flushCb = true) ∧
      (inVm = false → Midway s.toFsm s'.toFsm)

theorem outcome_before {x : M W Unit} {s s' : Session W} {e : Exn} (hx : x s = .error (.thrown e) s') (h : Midway s.toFsm s'.toFsm) :
    Outcome x s (.thrown e false) := ⟨s', hx, fun hf => absurd hf (by decide), fun _ => h⟩

theorem outcome_inVm {x : M W Unit} {s s' : Session W} {e : Exn} (hx : x s = .error (.thrown e) s') (h : s'.flushCb = true) :
    Outcome x s (.thrown e true) := ⟨s', hx, fun _ => h, fun hf => absurd hf (by decide)⟩

/-- A statement that is turned down when it is compiled. -/
theorem vmRun_malformed {nested : M W Unit} {opcode : ℕ} {text : List UInt8} {s : Session W} {e : Exn} {w : W}
    (h : B.exec text s.world = (.malformed e, w)) : vmRun peer B nested opcode text s = .error (.thrown e) { s with world := w } := by
  rw [vmRun, get_bind, h]
  rfl

theorem Ready.talking {s : Fsm} (h : Ready s) : Talking (.status BUFFER_SZ) (s.setFlushCb true) :=
  ⟨h.server, rfl, h.inbox, h.low, h.high, h.high⟩

/-- What a `vm` sends until it returns or throws. -/
theorem vmRun_acts (hp : Acknowledges peer) {opcode op : ℕ} (hop : lastOp opcode = op) (hor : op = OP_RSLT_FIN ∨ op = OP_RSLT_SYN)
    {text : List UInt8} {s : Session W} (hs : Ready s.toFsm) {as : List Act} {e : Option Exn} {w : W}
    (h : B.exec text s.world = (.program as e, w)) (hproper : (Stmt.program as e).Proper) (fuel : ℕ) :
    ∃ (f : Fsm) (msgs : List Msg), Ready ((f.setFlushCb false).cont) ∧ f.flushCb = true ∧ Sent op s.toFsm f msgs as ∧
      vmRun peer B (loop peer B (fuel + 2)) opcode text s =
        (e.elim ret fun e => throw (.thrown e) : M W Unit) { s with toFsm := f, world := w } := by
  obtain ⟨m, hm⟩ := Option.isSome_iff_exists.mp hproper.1
  obtain ⟨f, msgs, hf, ht, hsent⟩ := acts_talk (B := B) hp hop hor (s := { s with toFsm := s.setFlushCb true, world := w }) hs.talking hm fuel
  refine ⟨f, msgs, ⟨ht.server, rfl, rfl, ht.inbox, ht.low, ht.high⟩, ht.flushCb, ⟨hsent.sent, hsent.opcode, hsent.count, hsent.getLast⟩, ?_⟩
  rw [vmRun, get_bind, h]
  dsimp only
  rw [set_bind, modify_bind]
  refine (bind_run hf).trans ?_
  cases e <;> rfl

/-- The last statement of a file, or the only one. -/
theorem vmRun_outcome (hp : Acknowledges peer) (hB : ∀ text w, (B.exec text w).1.Proper) {opcode : ℕ} (hop : lastOp opcode = OP_RSLT_FIN)
    (text : List UInt8) {s : Session W} (hs : Ready s.toFsm) (fuel : ℕ) :
    Outcome (vmRun peer B (loop peer B (fuel + 2)) opcode text) s (B.exec text s.world).1.fate := by
  have hproper := hB text s.world
  cases h : B.exec text s.world with
  | mk stmt w =>
    rw [h] at hproper
    match stmt with
    | .malformed e => exact outcome_before (vmRun_malformed h) (Midway.refl hs)
    | .program as (some e) =>
      obtain ⟨f, msgs, -, hcb, -, hrun⟩ := vmRun_acts hp hop (Or.inl rfl) hs h hproper fuel
      exact outcome_inVm hrun hcb
    | .program as none =>
      obtain ⟨f, msgs, hready, -, hsent, hrun⟩ := vmRun_acts hp hop (Or.inl rfl) hs h hproper fuel
      refine ⟨_, hrun, hready, msgs, hsent.sent, hsent.opcode, hsent.count (by decide), fun hne => ?_⟩
      rcases hproper.2 rfl with rfl | hlast
      · exact absurd rfl hne
      · exact hsent.getLast hlast

/-- A statement of a file that is not its last. -/
theorem vmRun_midway (hp : Acknowledges peer) (hB : ∀ text w, (B.exec text w).1.Proper) (text : List UInt8) {s : Session W}
    (hs : Ready s.toFsm) (fuel : ℕ) :
    match (B.exec text s.world).1.fate with
    | .done _ => ∃ s', vmRun peer B (loop peer B (fuel + 2)) OP_RSLT_SYN text s = .ok () s' ∧ Midway s.toFsm s'.toFsm ∧
        s'.world = (B.exec text s.world).2
    | .thrown e inVm => Outcome (vmRun peer B (loop peer B (fuel + 2)) OP_RSLT_SYN text) s (.thrown e inVm) := by
  have hproper := hB text s.world
  cases h : B.exec text s.world with
  | mk stmt w =>
    rw [h] at hproper
    match stmt with
    | .malformed e => exact outcome_before (vmRun_malformed h) (Midway.refl hs)
    | .program as (some e) =>
      obtain ⟨f, msgs, -, hcb, -, hrun⟩ := vmRun_acts hp lastOp_syn (Or.inr rfl) hs h hproper fuel
      exact outcome_inVm hrun hcb
    | .program as none =>
      obtain ⟨f, msgs, hready, -, hsent, hrun⟩ := vmRun_acts hp lastOp_syn (Or.inr rfl) hs h hproper fuel
      exact ⟨_, hrun, ⟨hready, msgs, hsent.sent, fun m hm => (hsent.opcode m hm).elim id id⟩, rfl⟩

/-- The statements of a file, one after the other. -/
theorem sourceLoop_outcome (hp : Acknowledges peer) (hB : ∀ text w, (B.exec text w).1.Proper) (stmts : List (List UInt8)) {s : Session W}
    (hs : Ready s.toFsm) (fuel : ℕ) :
    Outcome (sourceLoop peer B (loop peer B (fuel + 2)) stmts) s (linesFate B stmts s.world) := by
  induction stmts generalizing s with
  | nil =>
    exact ⟨s, rfl, hs, [], (List.append_nil _).symm, fun _ hm => absurd hm List.not_mem_nil, rfl, fun hne => absurd rfl hne⟩
  | cons stmt stmts ih =>
    by_cases hnil : stmts = []
    · subst hnil
      have hout := @vmRun_outcome _ _ _ hp hB OP_NULL rfl stmt _ hs fuel
      rw [linesFate]
      cases hfate : (B.exec stmt s.world).1.fate with
      | done count =>
        rw [hfate] at hout
        obtain ⟨s', hrun, hfin⟩ := hout
        refine ⟨s', ?_, hfin⟩
        rw [sourceLoop, if_pos rfl, bind_run hrun]
        rfl
      | thrown e inVm =>
        rw [hfate] at hout
        obtain ⟨s', hrun, hvm, hno⟩ := hout
        refine ⟨s', ?_, hvm, hno⟩
        rw [sourceLoop, if_pos rfl, bind_throw hrun]
    · have hout := vmRun_midway hp hB stmt hs fuel
      rw [linesFate]
      cases hfate : (B.exec stmt s.world).1.fate with
      | done count =>
        rw [hfate] at hout
        obtain ⟨s', hrun, hmid, hworld⟩ := hout
        have hrest := ih hmid.ready
        simp only [if_neg hnil]
        rw [hworld] at hrest
        have heq : sourceLoop peer B (loop peer B (fuel + 2)) (stmt :: stmts) s = sourceLoop peer B (loop peer B (fuel + 2)) stmts s' := by
          rw [sourceLoop, if_neg hnil, bind_run hrun]
        cases hf : linesFate B stmts (B.exec stmt s.world).2 with
        | done count =>
          rw [hf] at hrest
          obtain ⟨s'', hrun', hfin⟩ := hrest
          exact ⟨s'', heq.trans hrun', hmid.finished hfin⟩
        | thrown e inVm =>
          rw [hf] at hrest
          obtain ⟨s'', hrun', hvm, hno⟩ := hrest
          exact ⟨s'', heq.trans hrun', hvm, fun h => hmid.trans (hno h)⟩
      | thrown e inVm =>
        rw [hfate] at hout
        obtain ⟨s', hrun, hvm, hno⟩ := hout
        refine ⟨s', ?_, hvm, hno⟩
        rw [sourceLoop, if_neg hnil, bind_throw hrun]

/-- An exception that is caught is handled. -/
theorem tryCatch_thrown {nested : M W Unit} {x : M W Unit} {e : Exn} {s s' : Session W} (h : x s = .error (.thrown e) s') :
    tryCatch x (fun what => reportError peer nested what OP_STMT_ERR) () s = handled peer nested e s' := by
  cases e with
  | runtime what => exact tryCatch_runtime h
  | exception => exact tryCatch_exception h

/-- The answer of a run whose exceptions are handled. -/
theorem Outcome.answered {nested x : M W Unit} {s : Session W} {fate : Fate} (h : Outcome x s fate) :
    ∃ s' : Session W, tryCatch x (fun what => reportError peer nested what OP_STMT_ERR) () s = .ok () s' ∧
      (Answered s.toFsm s'.toFsm ↔ fate.IsGood) := by
  cases fate with
  | done count =>
    obtain ⟨s', hrun, hfin⟩ := h
    exact ⟨s', tryCatch_ok hrun, hfin.answered_iff⟩
  | thrown e inVm =>
    obtain ⟨s', hrun, hvm, hno⟩ := h
    obtain ⟨f, hf, hiff⟩ := @handled_answered_iff _ peer nested _ _ _ _ hvm hno
    exact ⟨_, (tryCatch_thrown hrun).trans hf, hiff⟩

/-- The same for a file, where the exceptions are handled one level further in. -/
theorem Outcome.source_answered {nested x : M W Unit} {y : M W Bool} {s t : Session W} {fate : Fate}
    (hy : y s = (x >>= fun _ => pure true) t) (hst : t.toFsm = s.toFsm) (h : Outcome x t fate) :
    ∃ s' : Session W, tryCatch y (fun what => do
        reportError peer nested what OP_STMT_ERR
        pure true) true s = .ok true s' ∧
      (Answered s.toFsm s'.toFsm ↔ fate.IsGood) := by
  rw [← hst]
  cases fate with
  | done count =>
    obtain ⟨s', hrun, hfin⟩ := h
    refine ⟨s', tryCatch_ok ?_, hfin.answered_iff⟩
    rw [hy, bind_run hrun]
    rfl
  | thrown e inVm =>
    obtain ⟨s', hrun, hvm, hno⟩ := h
    obtain ⟨f, hf, hiff⟩ := @handled_answered_iff _ peer nested _ _ _ _ hvm hno
    have hbody : y s = .error (.thrown e) s' := by rw [hy, bind_throw hrun]
    refine ⟨s'.onFsm fun _ => f, ?_, hiff⟩
    cases e with
    | runtime what =>
      rw [tryCatch_runtime hbody]
      exact bind_run hf
    | exception =>
      rw [tryCatch_exception hbody]
      obtain ⟨-, hs'⟩ := pure_ok.mp hf
      rw [← hs']

/-- A text that has been received is answered as it should if it is good. -/
theorem text_answered (hp : Acknowledges peer) (hB : ∀ text w, (B.exec text w).1.Proper) (text : List UInt8) {s : Session W}
    (hs : Ready s.toFsm) (fuel : ℕ) :
    ∃ s', tryCatch (do
        if ← execSource peer B (loop peer B (fuel + 2)) text then pure ()
        else vmRun peer B (loop peer B (fuel + 2)) OP_RSLT_FIN text)
      (fun what => reportError peer (loop peer B (fuel + 2)) what OP_STMT_ERR) () s = .ok () s' ∧
      (Answered s.toFsm s'.toFsm ↔ (textFate B text s.world).IsGood) := by
  cases hsrc : B.source text s.world with
  | mk r w =>
    let t : Session W := { s with world := w }
    have ht : Ready t.toFsm := hs
    rw [textFate, hsrc]
    match r with
    | none =>
      have hexec : execSource peer B (loop peer B (fuel + 2)) text s = .ok false t := by
        refine tryCatch_ok ?_
        rw [trySource, get_bind, hsrc]
        rfl
      have hout := @vmRun_outcome _ _ _ hp hB OP_RSLT_FIN rfl text _ ht fuel
      obtain ⟨s', hrun, hiff⟩ := @Outcome.answered _ peer (loop peer B (fuel + 2)) _ _ _ hout
      refine ⟨s', ?_, hiff⟩
      rw [← hrun, tryCatch, tryCatch, bind_run hexec]
      rfl
    | some (.error e) =>
      let stop : M W Unit := throw (.thrown e)
      have hbefore : Outcome stop t (.thrown e false) := outcome_before rfl (Midway.refl ht)
      have hbody : trySource peer B (loop peer B (fuel + 2)) text s = (stop >>= fun _ => pure true) t := by
        rw [trySource, get_bind, hsrc]
        rfl
      obtain ⟨s', hrun, hiff⟩ := Outcome.source_answered hbody rfl hbefore
      exact ⟨s', tryCatch_ok (bind_run hrun), hiff⟩
    | some (.ok lines) =>
      have hlines := sourceLoop_outcome hp hB (lines.filter fun line => line ≠ []) ht fuel
      have hbody : trySource peer B (loop peer B (fuel + 2)) text s =
          (sourceLoop peer B (loop peer B (fuel + 2)) (lines.filter fun line => line ≠ []) >>= fun _ => pure true) t := by
        rw [trySource, get_bind, hsrc]
        rfl
      obtain ⟨s', hrun, hiff⟩ := Outcome.source_answered hbody rfl hlines
      exact ⟨s', tryCatch_ok (bind_run hrun), hiff⟩

/-- A statement or a SOURCE file that has been received is answered by one last message, and the
connection is ready for the next one, if and only if what becomes of its text is good. -/
theorem statement_answered_iff (hp : Acknowledges peer) (hB : ∀ text w, (B.exec text w).1.Proper) {s : Session W} (hs : Ready s.toFsm)
    (hop : s.getOpcode = OP_STMT_SYN) (fuel : ℕ) :
    ∃ s', rcvd peer B (loop peer B (fuel + 2)) s = .ok () s' ∧ (Answered s.toFsm s'.toFsm ↔ (messageFate B s).IsGood) := by
  let s₁ := s.note .statement
  have hrcvd : rcvd peer B (loop peer B (fuel + 2)) s = tryCatch (do
        let stmt ← stmtText B
        if ← execSource peer B (loop peer B (fuel + 2)) stmt then pure ()
        else vmRun peer B (loop peer B (fuel + 2)) OP_RSLT_FIN stmt)
      (fun what => reportError peer (loop peer B (fuel + 2)) what OP_STMT_ERR) () s₁ := by
    rw [rcvd, get_bind, hop]
    rfl
  -- the text, or an exception before there is one
  have htext : ∀ (text : List UInt8) (w : W), stmtText B s₁ = .ok text { s₁ with world := w } → messageFate B s = textFate B text w →
      ∃ s', rcvd peer B (loop peer B (fuel + 2)) s = .ok () s' ∧ (Answered s.toFsm s'.toFsm ↔ (messageFate B s).IsGood) := by
    intro text w hstmt hfate
    obtain ⟨s', hrun, hiff⟩ := text_answered hp hB text (s := { s₁ with world := w }) hs fuel
    refine ⟨s', ?_, hfate ▸ hiff⟩
    rw [hrcvd, ← hrun, tryCatch, tryCatch, bind_run hstmt]
  by_cases henc : s.getType = TYPE_ENC
  · have henc₁ : s₁.getType = TYPE_ENC := henc
    cases hdec : B.decrypt s.data s.world with
    | mk r w =>
      have hdec₁ : B.decrypt s₁.data s₁.world = (r, w) := hdec
      cases r with
      | ok stmt =>
        refine htext (firstStmt stmt) w ?_ (by rw [messageFate, if_pos henc, hdec])
        rw [stmtText, get_bind, if_pos henc₁, hdec₁]
        rfl
      | error e =>
        have hstmt : stmtText B s₁ = .error (.thrown e) { s₁ with world := w } := by
          rw [stmtText, get_bind, if_pos henc₁, hdec₁]
          rfl
        have hbefore : Outcome (do
            let stmt ← stmtText B
            if ← execSource peer B (loop peer B (fuel + 2)) stmt then pure ()
            else vmRun peer B (loop peer B (fuel + 2)) OP_RSLT_FIN stmt) s₁ (.thrown e false) :=
          outcome_before (bind_throw hstmt) (Midway.refl hs)
        obtain ⟨s', hrun, hiff⟩ := @Outcome.answered _ peer (loop peer B (fuel + 2)) _ _ _ hbefore
        have hfate : messageFate B s = .thrown e false := by rw [messageFate, if_pos henc, hdec]
        exact ⟨s', hrcvd.trans hrun, hfate ▸ hiff⟩
  · have henc₁ : ¬s₁.getType = TYPE_ENC := henc
    refine htext s.data s.world ?_ (by rw [messageFate, if_neg henc])
    rw [stmtText, get_bind, if_neg henc₁]
    rfl

theorem client_acknowledges : Acknowledges client := ⟨client_answers, fun _ h => if_neg h⟩

/-- A server whose statements all are this one. -/
def oneStmt (stmt : Stmt) : Backend Unit := { emptyBackend with exec := fun _ w => (stmt, w) }

/-- A session that has received a statement behind its authentication. -/
def waiting : Session Unit :=
  { (Fsm.new true (fun _ => 0) []).received [6, 0, 83, 59] [] with opsent := OP_AUTH_ACK, world := (), trace := [.accepted] }

theorem waiting_ready : Ready waiting.toFsm := ⟨rfl, rfl, rfl, rfl, by decide, by decide⟩

theorem statement_answered_status : ∃ s', rcvd client (oneStmt (.program (statusActs [79, 75]) none))
      (loop client (oneStmt (.program (statusActs [79, 75]) none)) 2) waiting = .ok () s' ∧
    (Answered waiting.toFsm s'.toFsm ↔ (messageFate (oneStmt (.program (statusActs [79, 75]) none)) waiting).IsGood) :=
  statement_answered_iff client_acknowledges (fun _ _ => proper_status (by decide)) waiting_ready rfl 0

/-- LOAD DATA sends a dot, and then it throws at a value that its column does not take. -/
def stopsMidway : Stmt := .program [.resetOp OP_RSLT_SYN, .put [46], .flush] (some (.runtime [69]))

/-- The error is told, but the loop of the connection ends. -/
theorem stopsMidway_unanswered : stopsMidway.Proper ∧
    ¬Answered waiting.toFsm (final (rcvd client (oneStmt stopsMidway) (loop client (oneStmt stopsMidway) 2) waiting)).toFsm := by
  have hloop : (final (rcvd client (oneStmt stopsMidway) (loop client (oneStmt stopsMidway) 2) waiting)).loop = false := by decide +kernel
  exact ⟨⟨rfl, fun h => nomatch h⟩, fun h => absurd (hloop.symm.trans h.loop) (by decide)⟩

end RedB.Comm
