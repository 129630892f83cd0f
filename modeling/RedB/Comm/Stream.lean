import RedB.Comm.Server
import RedB.Theory.Runs

/-!
# Results in messages

A result goes out through the buffer of its connection: each time the buffer is full it is sent,
and the loop runs until the client has acknowledged the message. The acknowledgement is received
into the same buffer, and its opcode is the one of the next message (`flush_acknowledged`). So
the messages carry the data that was put, in order (`put_streams`, `result_streamed`).
-/

namespace RedB.Comm

open Runs

variable {W : Type} {peer : Msg → List Msg} {B : Backend W}

/-- An acknowledgement. -/
def ackMsg (type : UInt8) : Msg := [UInt8.ofNat OP_RSLT_ACK, type]

/-- A client that acknowledges each message of a result that is not its last. -/
def Answers (peer : Msg → List Msg) : Prop := ∀ m, opcodeOf m = OP_RSLT_SYN → ∃ type, peer m = [ackMsg type]

/-- The client of the console: it acknowledges by a message of type `TYPE_TXT`. -/
def client (m : Msg) : List Msg := if opcodeOf m = OP_RSLT_SYN then [ackMsg (UInt8.ofNat TYPE_TXT)] else []

theorem client_answers : Answers client := fun _ h => ⟨UInt8.ofNat TYPE_TXT, if_pos h⟩

/-! ### Buffers -/

namespace Fsm

variable {s : Fsm}

theorem length_contents : s.contents.length = s.size := by
  rw [contents, List.length_map, List.length_range]

theorem opcodeOf_contents (h : 0 < s.size) : opcodeOf s.contents = s.getOpcode := by
  obtain ⟨n, hn⟩ := Nat.exists_eq_succ_of_ne_zero (Nat.ne_of_gt h)
  rw [opcodeOf, contents, hn, List.range_succ_eq_map]
  rfl

theorem length_data : s.data.length = s.size - OPCODE_SZ := by
  rw [data, payload, List.length_drop, length_contents]

theorem contents_putByte (b : UInt8) : (s.putByte b).contents = s.contents ++ [b] := by
  show (List.range (s.size + 1)).map (Function.update s.buffer s.size b) = s.contents ++ [b]
  rw [List.range_succ, List.map_append, List.map_singleton, Function.update_self]
  congr 1
  refine List.map_congr_left fun i hi => Function.update_of_ne ?_ ..
  exact Nat.ne_of_lt (List.mem_range.mp hi)

theorem data_putByte (h : OPCODE_SZ ≤ s.size) (b : UInt8) : (s.putByte b).data = s.data ++ [b] := by
  rw [data, contents_putByte, payload, List.drop_append_of_le_length (length_contents ▸ h)]
  rfl

theorem getOpcode_putByte (h : OPCODE_SZ ≤ s.size) (b : UInt8) : (s.putByte b).getOpcode = s.getOpcode :=
  congrArg UInt8.toNat (Function.update_of_ne (Nat.ne_of_lt (Nat.lt_of_lt_of_le (by decide) h)) ..)

theorem getOpcode_setOpcode {opcode : ℕ} (h : opcode < 256) : (s.setOpcode opcode).getOpcode = opcode := by
  show (Function.update s.buffer OPCODE_POS (UInt8.ofNat opcode) OPCODE_POS).toNat = opcode
  rw [Function.update_self, UInt8.toNat_ofNat', Nat.mod_eq_of_lt h]

theorem getOpcode_resetOp {opcode : ℕ} (h : opcode < 256) : (s.resetOp opcode).getOpcode = opcode := getOpcode_setOpcode h

theorem getOpcode_setType (type : ℕ) : (s.setType type).getOpcode = s.getOpcode := by
  have hne : OPCODE_POS ≠ TYPE_POS := by decide
  exact congrArg UInt8.toNat (Function.update_of_ne hne (UInt8.ofNat type) s.buffer)

theorem data_reset : s.reset.data = [] := List.length_eq_zero_iff.mp (length_data.trans (Nat.sub_self _))

/-- The opcode is not part of the data. -/
theorem data_setOpcode (opcode : ℕ) : (s.setOpcode opcode).data = s.data := by
  refine List.ext_getElem (by rw [length_data, length_data, setOpcode]) fun i _ _ => ?_
  simp only [data, payload, contents, List.getElem_drop, List.getElem_map, List.getElem_range, setOpcode]
  refine Function.update_of_ne ?_ ..
  rw [OPCODE_SZ, OPCODE_POS]
  omega

/-- The connection when it has received a message and others are waiting. -/
def received (m : Msg) (ms : List Msg) (s : Fsm) : Fsm :=
  { s with buffer := fun i => m.getD i (s.buffer i), size := m.length, inbox := ms }

theorem recv_cons {m : Msg} {ms : List Msg} (h : s.inbox = m :: ms) (hm : m.length ≤ BUFFER_SZ) : s.recv = s.received m ms := by
  rw [recv, h]
  simp only [List.take_of_length_le hm, if_pos hm]
  rfl

theorem opsent_recv : s.recv.opsent = s.opsent := by
  rw [recv]
  cases s.inbox <;> rfl

end Fsm

open Fsm

/-! ### Acknowledgements -/

/-- A loop whose flag is cleared ends. -/
theorem loop_done {s : Session W} (h : s.loop = false) (fuel : ℕ) : loop peer B (fuel + 1) s = .ok () s := by
  rw [loop, get_bind, if_neg (by rw [h]; decide)]
  rfl

/-- A turn of a loop that has received what it does not expect. -/
theorem loop_nop {s : Session W} (hl : s.loop = true) (hs : (s.onFsm Fsm.recv).size ≠ 0)
    (hd : dispatch srvFsm (s.onFsm Fsm.recv).opsent (s.onFsm Fsm.recv).getOpcode = .nop) (fuel : ℕ) :
    loop peer B (fuel + 1) s = loop peer B fuel ((s.onFsm Fsm.recv).onFsm Fsm.term) := by
  rw [loop, get_bind, if_pos hl, modify_bind, get_bind, if_neg hs, hd]
  rfl

/-- A turn of a loop that has received what is handled. -/
theorem loop_rcvd {s : Session W} (hl : s.loop = true) (hs : (s.onFsm Fsm.recv).size ≠ 0)
    (hd : dispatch srvFsm (s.onFsm Fsm.recv).opsent (s.onFsm Fsm.recv).getOpcode = .rcvd) (fuel : ℕ) :
    loop peer B (fuel + 1) s =
      (rcvd peer B (loop peer B fuel) >>= fun _ => loop peer B fuel) (s.onFsm Fsm.recv) := by
  rw [loop, get_bind, if_pos hl, modify_bind, get_bind, if_neg hs, hd]

theorem rcvd_ack {nested : M W Unit} {s : Session W} (h : s.getOpcode = OP_RSLT_ACK) :
    rcvd peer B nested s = .ok () (s.onFsm Fsm.term) := by
  rw [rcvd, get_bind, h]
  rfl

/-- A loop behind a message of a result ends with the acknowledgement. -/
theorem loop_ack {s : Session W} {type : UInt8} (hl : s.loop = true) (ho : s.opsent = OP_RSLT_SYN)
    (hi : s.inbox = [ackMsg type]) (fuel : ℕ) :
    loop peer B (fuel + 2) s = .ok () (s.onFsm fun s => (s.received (ackMsg type) []).term) := by
  have hlen : (ackMsg type).length ≤ BUFFER_SZ := by
    show 2 ≤ 1460
    decide
  have hturn : s.onFsm Fsm.recv = s.onFsm (received (ackMsg type) []) := by
    rw [Session.onFsm, recv_cons hi hlen]
    rfl
  have hop : (s.onFsm Fsm.recv).getOpcode = OP_RSLT_ACK := hturn ▸ rfl
  have hd : dispatch srvFsm (s.onFsm Fsm.recv).opsent (s.onFsm Fsm.recv).getOpcode = .rcvd := by
    have hop' : (s.onFsm Fsm.recv).opsent = s.opsent := hturn ▸ rfl
    rw [hop, hop', ho]
    rfl
  rw [loop_rcvd hl (hturn ▸ Nat.succ_ne_zero _) hd, bind_run (rcvd_ack hop), loop_done rfl, hturn]
  rfl

/-! ### Exceptions -/

section TryCatch

variable {α : Type} {x : M W α} {onRuntime : List UInt8 → M W α} {onException : α} {s s' : Session W}

theorem tryCatch_ok {a : α} (h : x s = .ok a s') : tryCatch x onRuntime onException s = .ok a s' := by
  rw [tryCatch, h]

theorem tryCatch_runtime {what : List UInt8} (h : x s = .error (.thrown (.runtime what)) s') :
    tryCatch x onRuntime onException s = onRuntime what s' := by
  rw [tryCatch, h]

theorem tryCatch_exception (h : x s = .error (.thrown .exception) s') : tryCatch x onRuntime onException s = .ok onException s' := by
  rw [tryCatch, h]

end TryCatch

/-! ### Sending -/

section Sending

variable {nested : M W Unit} {s : Session W}

/-- A message of a result that is not its last is sent, and the loop runs. -/
theorem flush_syn (hs : s.isServer = true) (ho : s.getOpcode = OP_RSLT_SYN) (hcb : s.flushCb = true) :
    flush peer nested s = nested (s.onFsm fun s => ((s.send peer).reset).cont) := by
  let s' := (s.onFsm fun s => s.send peer).onFsm Fsm.reset
  have hs' : s'.isServer = true ∧ s'.opsent = OP_RSLT_SYN := ⟨hs, ho⟩
  have hcb' : s'.flushCb = true := hcb
  rw [flush, modify_bind, modify_bind, get_bind, if_pos hs', flushCb, get_bind, if_pos hcb']
  rfl

/-- Any other message is sent and that is all. -/
theorem flush_other (ho : s.getOpcode ≠ OP_RSLT_SYN) : flush peer nested s = .ok () (s.onFsm fun s => (s.send peer).reset) := by
  let s' := (s.onFsm fun s => s.send peer).onFsm Fsm.reset
  have hs' : ¬(s'.isServer = true ∧ s'.opsent = OP_RSLT_SYN) := fun h => ho h.2
  rw [flush, modify_bind, modify_bind, get_bind, if_neg hs']
  rfl

/-- A message without data that is not part of a result. -/
theorem resetOp_flush {op : ℕ} (hne : op ≠ OP_RSLT_SYN) (hop : op < 256) :
    (modify (Session.onFsm fun s => s.resetOp op) >>= fun _ => flush peer nested) s =
      .ok () (s.onFsm fun s => ((s.resetOp op).send peer).reset) := by
  have hne' : (s.onFsm fun s => s.resetOp op).getOpcode ≠ OP_RSLT_SYN := by
    show (s.resetOp op).getOpcode ≠ _
    rwa [getOpcode_resetOp hop]
  rw [modify_bind, flush_other hne']
  rfl

/-- There is no callback. -/
theorem flush_no_callback (hs : s.isServer = true) (ho : s.getOpcode = OP_RSLT_SYN) (hcb : ¬s.flushCb = true) :
    flush peer nested s = .error (.thrown .exception) (s.onFsm fun s => (s.send peer).reset) := by
  let s' := (s.onFsm fun s => s.send peer).onFsm Fsm.reset
  have hs' : s'.isServer = true ∧ s'.opsent = OP_RSLT_SYN := ⟨hs, ho⟩
  have hcb' : ¬s'.flushCb = true := hcb
  rw [flush, modify_bind, modify_bind, get_bind, if_pos hs', flushCb, get_bind, if_neg hcb']
  rfl

/-- A client does not wait when it sends. -/
theorem flush_client (hs : ¬s.isServer = true) : flush peer nested s = .ok () (s.onFsm fun s => (s.send peer).reset) := by
  let s' := (s.onFsm fun s => s.send peer).onFsm Fsm.reset
  have hs' : ¬(s'.isServer = true ∧ s'.opsent = OP_RSLT_SYN) := fun h => hs h.1
  rw [flush, modify_bind, modify_bind, get_bind, if_neg hs']
  rfl

/-- A byte is put into a buffer that is not full. -/
theorem put_cons (hs : s.size ≠ BUFFER_SZ) (b : UInt8) (buf : List UInt8) :
    put peer nested (b :: buf) s = put peer nested buf (s.onFsm fun s => s.putByte b) := by
  rw [put, get_bind, if_neg hs]
  rfl

/-- A full buffer is flushed first. -/
theorem put_cons_full {s' : Session W} (hs : s.size = BUFFER_SZ) (hf : flush peer nested s = .ok () s') (b : UInt8) (buf : List UInt8) :
    put peer nested (b :: buf) s = put peer nested buf (s'.onFsm fun s => s.putByte b) := by
  rw [put, get_bind, if_pos hs]
  exact bind_run hf

end Sending

/-! ### Messages of their own -/

/-- From one connection to the other, messages with this opcode have been sent, and nothing has
been received. -/
structure Says (peer : Msg → List Msg) (op : ℕ) (s s' : Fsm) (msgs : List Msg) : Prop where
  server : s'.isServer = s.isServer
  loop : s'.loop = s.loop
  flushCb : s'.flushCb = s.flushCb
  inbox : s'.inbox = s.inbox ++ msgs.flatMap peer
  sent : s'.sent = s.sent ++ msgs
  opcode : ∀ m ∈ msgs, opcodeOf m = op

theorem Says.trans {op : ℕ} {s s' s'' : Fsm} {msgs msgs' : List Msg} (h : Says peer op s s' msgs) (h' : Says peer op s' s'' msgs') :
    Says peer op s s'' (msgs ++ msgs') where
  server := h'.server.trans h.server
  loop := h'.loop.trans h.loop
  flushCb := h'.flushCb.trans h.flushCb
  inbox := by rw [h'.inbox, h.inbox, List.flatMap_append, List.append_assoc]
  sent := by rw [h'.sent, h.sent, List.append_assoc]
  opcode m hm := (List.mem_append.mp hm).elim (h.opcode m) (h'.opcode m)

theorem says_nothing {op : ℕ} {s s' : Fsm} (hs : s'.isServer = s.isServer) (hl : s'.loop = s.loop) (hcb : s'.flushCb = s.flushCb)
    (hi : s'.inbox = s.inbox) (hsent : s'.sent = s.sent) : Says peer op s s' [] :=
  ⟨hs, hl, hcb, by rw [hi, List.flatMap_nil, List.append_nil], by rw [hsent, List.append_nil], fun _ hm => absurd hm List.not_mem_nil⟩

theorem send_said {op : ℕ} {s : Fsm} (hop : s.getOpcode = op) (hs : 0 < s.size) : Says peer op s (s.send peer).reset [s.contents] where
  server := rfl
  loop := rfl
  flushCb := rfl
  inbox := by rw [List.flatMap_singleton]; rfl
  sent := rfl
  opcode m hm := by rw [List.mem_singleton.mp hm, opcodeOf_contents hs, hop]

/-- What is put into a message that is not part of a result is sent without waiting. -/
theorem put_said {nested : M W Unit} {op : ℕ} (hne : op ≠ OP_RSLT_SYN) {s : Session W} (hop : s.getOpcode = op)
    (hlow : OPCODE_SZ ≤ s.size) (hhigh : s.size ≤ BUFFER_SZ) (buf : List UInt8) :
    ∃ (f : Fsm) (msgs : List Msg), put peer nested buf s = .ok () (s.onFsm fun _ => f) ∧ Says peer op s.toFsm f msgs ∧
      f.getOpcode = op ∧ OPCODE_SZ ≤ f.size ∧ f.size ≤ BUFFER_SZ ∧ (msgs = [] ↔ s.size + buf.length ≤ BUFFER_SZ) := by
  induction buf generalizing s with
  | nil => exact ⟨s.toFsm, [], rfl, says_nothing rfl rfl rfl rfl rfl, hop, hlow, hhigh, iff_of_true rfl hhigh⟩
  | cons b buf ih =>
    by_cases hs : s.size = BUFFER_SZ
    · let f := (s.send peer).reset
      have hf : flush peer nested s = .ok () (s.onFsm fun s => (s.send peer).reset) := flush_other (hop ▸ hne)
      obtain ⟨f', msgs, hf', hsaid, hop', hlow', hhigh', -⟩ := ih (s := s.onFsm fun _ => f.putByte b)
        ((getOpcode_putByte (Nat.le_refl _) b).trans hop) (by show 2 ≤ 3; decide) (by show 3 ≤ 1460; decide)
      have hput : Says peer op f (f.putByte b) [] := says_nothing rfl rfl rfl rfl rfl
      refine ⟨f', [s.contents] ++ ([] ++ msgs), ?_, (send_said hop (Nat.lt_of_lt_of_le (by decide) hlow)).trans (hput.trans hsaid),
        hop', hlow', hhigh', iff_of_false (List.cons_ne_nil _ _) ?_⟩
      · rw [put_cons_full hs hf]
        exact hf'
      · rw [hs, List.length_cons]
        omega
    · obtain ⟨f', msgs, hf', hsaid, hop', hlow', hhigh', hmsgs⟩ := ih (s := s.onFsm fun s => s.putByte b)
        ((getOpcode_putByte hlow b).trans hop) (Nat.le_succ_of_le hlow) (Nat.lt_of_le_of_ne hhigh hs)
      have hput : Says peer op s.toFsm (s.putByte b) [] := says_nothing rfl rfl rfl rfl rfl
      refine ⟨f', [] ++ msgs, ?_, hput.trans hsaid, hop', hlow', hhigh', ?_⟩
      · rw [put_cons hs]
        exact hf'
      · rw [List.nil_append, hmsgs, List.length_cons]
        show s.size + 1 + buf.length ≤ _ ↔ _
        omega

/-- An error is told in messages of its own, in one if its text fits. -/
theorem reportError_said {nested : M W Unit} {op : ℕ} (hne : op ≠ OP_RSLT_SYN) (hop : op < 256) (what : List UInt8) (s : Session W) :
    ∃ (f : Fsm) (msgs : List Msg), reportError peer nested what op s = .ok () (s.onFsm fun _ => f) ∧ Says peer op s.toFsm f msgs ∧
      f.opsent = op ∧ msgs ≠ [] ∧ (msgs.length = 1 ↔ OPCODE_SZ + what.length + 1 ≤ BUFFER_SZ) := by
  let s₁ := s.onFsm fun s => s.resetOp op
  have hsize : s₁.size = OPCODE_SZ := rfl
  obtain ⟨f, msgs, hf, hsaid, hop', hlow, -, hmsgs⟩ := @put_said _ peer nested _ hne s₁
    (getOpcode_resetOp hop) (Nat.le_of_eq hsize.symm) (by rw [hsize]; decide) (what ++ [10])
  have hflush : flush peer nested (s₁.onFsm fun _ => f) = .ok () _ := flush_other (fun h => hne (hop'.symm.trans h))
  have hreset : Says peer op s.toFsm s₁.toFsm [] := says_nothing rfl rfl rfl rfl rfl
  refine ⟨(f.send peer).reset, [] ++ (msgs ++ [f.contents]), ?_,
    hreset.trans (hsaid.trans (send_said hop' (Nat.lt_of_lt_of_le (by decide) hlow))), hop',
    List.append_ne_nil_of_right_ne_nil _ (List.append_ne_nil_of_right_ne_nil _ (List.cons_ne_nil _ _)), ?_⟩
  · rw [reportError, modify_bind, bind_run hf, hflush]
    rfl
  · rw [List.nil_append, List.length_append, List.length_singleton, Nat.add_eq_right, List.length_eq_zero_iff, hmsgs, hsize,
      List.length_append, List.length_singleton, Nat.add_assoc]

/-! ### Messages of a result -/

/-- A result is put into the buffer. -/
structure Streaming (s : Fsm) : Prop where
  server : s.isServer = true
  flushCb : s.flushCb = true
  opcode : s.getOpcode = OP_RSLT_SYN
  inbox : s.inbox = []
  low : OPCODE_SZ ≤ s.size
  high : s.size ≤ BUFFER_SZ

/-- The buffer is sent and acknowledged, and the acknowledgement leaves the opcode of the next
message. -/
theorem flush_acknowledged (hp : Answers peer) {s : Session W} (h : Streaming s.toFsm) (fuel : ℕ) :
    ∃ f : Fsm, flush peer (loop peer B (fuel + 2)) s = .ok () (s.onFsm fun _ => f) ∧ Streaming f ∧ f.data = [] ∧
      f.size = OPCODE_SZ ∧ f.sent = s.sent ++ [s.contents] ∧ f.opsent = OP_RSLT_SYN := by
  have hop : opcodeOf s.contents = OP_RSLT_SYN := (opcodeOf_contents (Nat.lt_of_lt_of_le (by decide) h.low)).trans h.opcode
  obtain ⟨type, htype⟩ := hp s.contents hop
  have hinbox : s.inbox ++ peer s.contents = [ackMsg type] := by rw [h.inbox, htype, List.nil_append]
  have hack : loop peer B (fuel + 2) (s.onFsm fun s => ((s.send peer).reset).cont) = _ := loop_ack rfl h.opcode hinbox fuel
  have hlen : OPCODE_SZ ≤ BUFFER_SZ := by decide
  refine ⟨((((s.send peer).reset).cont).received (ackMsg type) []).term, ?_, ⟨h.server, h.flushCb, rfl, rfl, Nat.le_refl _, hlen⟩,
    List.length_eq_zero_iff.mp (length_data.trans rfl), rfl, rfl, h.opcode⟩
  rw [flush_syn h.server h.opcode h.flushCb]
  exact hack

/-- From one connection to the other, messages of a result have been sent for this data. -/
structure Streams (s s' : Fsm) (buf : List UInt8) (msgs : List Msg) : Prop where
  streaming : Streaming s'
  sent : s'.sent = s.sent ++ msgs
  opcode : ∀ m ∈ msgs, opcodeOf m = OP_RSLT_SYN
  length : ∀ m ∈ msgs, m.length ≤ BUFFER_SZ
  data : msgs.flatMap payload ++ s'.data = s.data ++ buf

theorem Streams.refl {s : Fsm} (h : Streaming s) : Streams s s [] [] :=
  ⟨h, (List.append_nil _).symm, fun _ hm => absurd hm List.not_mem_nil, fun _ hm => absurd hm List.not_mem_nil,
    (List.append_nil _).symm⟩

theorem Streams.trans {s s' s'' : Fsm} {buf buf' : List UInt8} {msgs msgs' : List Msg} (h : Streams s s' buf msgs)
    (h' : Streams s' s'' buf' msgs') : Streams s s'' (buf ++ buf') (msgs ++ msgs') where
  streaming := h'.streaming
  sent := by rw [h'.sent, h.sent, List.append_assoc]
  opcode m hm := (List.mem_append.mp hm).elim (h.opcode m) (h'.opcode m)
  length m hm := (List.mem_append.mp hm).elim (h.length m) (h'.length m)
  data := by rw [List.flatMap_append, List.append_assoc, h'.data, ← List.append_assoc, h.data, List.append_assoc]

/-- A byte is put into a buffer that is not full. -/
theorem Streaming.putByte {s : Fsm} (h : Streaming s) (hs : s.size ≠ BUFFER_SZ) (b : UInt8) : Streams s (s.putByte b) [b] [] where
  streaming := ⟨h.server, h.flushCb, (getOpcode_putByte h.low b).trans h.opcode, h.inbox, Nat.le_succ_of_le h.low,
    Nat.lt_of_le_of_ne h.high hs⟩
  sent := (List.append_nil _).symm
  opcode _ hm := absurd hm List.not_mem_nil
  length _ hm := absurd hm List.not_mem_nil
  data := data_putByte h.low b

theorem flush_streams (hp : Answers peer) {s : Session W} (h : Streaming s.toFsm) (fuel : ℕ) :
    ∃ f : Fsm, flush peer (loop peer B (fuel + 2)) s = .ok () (s.onFsm fun _ => f) ∧ Streams s.toFsm f [] [s.contents] ∧
      f.size = OPCODE_SZ := by
  obtain ⟨f, hf, hstream, hdata, hsize, hsent, -⟩ := flush_acknowledged (B := B) hp h fuel
  refine ⟨f, hf, ⟨hstream, hsent, fun m hm => ?_, fun m hm => ?_, ?_⟩, hsize⟩
  · rw [List.mem_singleton.mp hm, opcodeOf_contents (Nat.lt_of_lt_of_le (by decide) h.low)]
    exact h.opcode
  · rw [List.mem_singleton.mp hm, length_contents]
    exact h.high
  · rw [hdata, List.flatMap_singleton, List.append_nil, List.append_nil]
    rfl

/-- What is put goes out in messages of the result, or is in the buffer. -/
theorem put_streams (hp : Answers peer) {s : Session W} (h : Streaming s.toFsm) (fuel : ℕ) (buf : List UInt8) :
    ∃ (f : Fsm) (msgs : List Msg), put peer (loop peer B (fuel + 2)) buf s = .ok () (s.onFsm fun _ => f) ∧
      Streams s.toFsm f buf msgs := by
  induction buf generalizing s with
  | nil => exact ⟨s.toFsm, [], rfl, .refl h⟩
  | cons b buf ih =>
    by_cases hs : s.size = BUFFER_SZ
    · obtain ⟨f, hf, hflush, hsize⟩ := flush_streams (B := B) hp h fuel
      have hput := hflush.streaming.putByte (by rw [hsize]; decide) b
      obtain ⟨f', msgs, hf', hrest⟩ := ih (s := s.onFsm fun _ => f.putByte b) hput.streaming
      refine ⟨f', [s.contents] ++ ([] ++ msgs), ?_, (hflush.trans (hput.trans hrest))⟩
      rw [put_cons_full hs hf]
      exact hf'
    · have hput := h.putByte hs b
      obtain ⟨f', msgs, hf', hrest⟩ := ih (s := s.onFsm fun s => s.putByte b) hput.streaming
      refine ⟨f', [] ++ msgs, ?_, hput.trans hrest⟩
      rw [put_cons hs]
      exact hf'

/-- The same for all that a statement puts. -/
theorem acts_put_streams (hp : Answers peer) {s : Session W} (h : Streaming s.toFsm) (fuel opcode : ℕ) (bufs : List (List UInt8)) :
    ∃ (f : Fsm) (msgs : List Msg), acts peer (loop peer B (fuel + 2)) opcode (bufs.map .put) s = .ok () (s.onFsm fun _ => f) ∧
      Streams s.toFsm f bufs.flatten msgs := by
  induction bufs generalizing s with
  | nil => exact ⟨s.toFsm, [], rfl, .refl h⟩
  | cons buf bufs ih =>
    obtain ⟨f, msgs, hf, hput⟩ := put_streams (B := B) hp h fuel buf
    obtain ⟨f', msgs', hf', hrest⟩ := ih (s := s.onFsm fun _ => f) hput.streaming
    refine ⟨f', msgs ++ msgs', ?_, hput.trans hrest⟩
    rw [List.map_cons, acts, act, bind_run hf]
    exact hf'

theorem acts_append {nested : M W Unit} {opcode : ℕ} {as as' : List Act} {s s' : Session W}
    (h : acts peer nested opcode as s = .ok () s') : acts peer nested opcode (as ++ as') s = acts peer nested opcode as' s' := by
  induction as generalizing s with
  | nil =>
    cases h
    rfl
  | cons a as ih =>
    obtain ⟨⟨⟩, t, ha, has⟩ := bind_ok.mp h
    rw [List.cons_append, acts, bind_run ha, ih has]

/-- The last message of a statement. -/
theorem fsmFlush_last {nested : M W Unit} {opcode : ℕ} (hop : opcode = OP_NULL ∨ opcode = OP_RSLT_FIN) (s : Session W) :
    fsmFlush peer nested opcode s = .ok () (s.onFsm fun s => ((s.setOpcode OP_RSLT_FIN).send peer).reset) := by
  have hfin : (if opcode = OP_NULL then OP_RSLT_FIN else opcode) = OP_RSLT_FIN := by
    rcases hop with rfl | rfl <;> rfl
  have hne : (s.onFsm fun s => s.setOpcode OP_RSLT_FIN).getOpcode ≠ OP_RSLT_SYN := by
    show (s.setOpcode OP_RSLT_FIN).getOpcode ≠ _
    rw [getOpcode_setOpcode (by decide)]
    decide
  rw [fsmFlush, modify_bind, hfin, flush_other hne]
  rfl

/-- A result goes out in messages that carry all that has been put, in order; all but the last
have the opcode `OP_RSLT_SYN`, and no message is longer than the buffer. -/
theorem result_streamed (hp : Answers peer) {s : Session W} (hs : s.isServer = true) (hi : s.inbox = []) {opcode : ℕ}
    (hop : opcode = OP_NULL ∨ opcode = OP_RSLT_FIN) (puts : List (List UInt8)) (fuel : ℕ) :
    ∃ s' msgs last, acts peer (loop peer B (fuel + 2)) opcode (.resetOp OP_RSLT_SYN :: puts.map .put ++ [.fsmFlush])
        (s.onFsm fun s => s.setFlushCb true) = .ok () s' ∧
      s'.sent = s.sent ++ (msgs ++ [last]) ∧ (msgs ++ [last]).flatMap payload = puts.flatten ∧
      (∀ m ∈ msgs, opcodeOf m = OP_RSLT_SYN) ∧ opcodeOf last = OP_RSLT_FIN ∧ ∀ m ∈ msgs ++ [last], m.length ≤ BUFFER_SZ := by
  have hstart : Streaming ((s.setFlushCb true).resetOp OP_RSLT_SYN) :=
    ⟨hs, rfl, getOpcode_resetOp (by decide), hi, Nat.le_refl _, by show OPCODE_SZ ≤ BUFFER_SZ; decide⟩
  obtain ⟨f, msgs, hf, hmsgs⟩ := acts_put_streams (B := B) hp (s := s.onFsm fun s => (s.setFlushCb true).resetOp OP_RSLT_SYN) hstart fuel
    opcode puts
  have hlow : 0 < f.size := Nat.lt_of_lt_of_le (by decide) hmsgs.streaming.low
  have hdata := hmsgs.data
  have hempty : ((s.setFlushCb true).resetOp OP_RSLT_SYN).data = [] := by
    rw [resetOp, data_setOpcode, data_reset]
  refine ⟨s.onFsm fun _ => ((f.setOpcode OP_RSLT_FIN).send peer).reset, msgs, (f.setOpcode OP_RSLT_FIN).contents, ?_, ?_, ?_,
    hmsgs.opcode, ?_, fun m hm => ?_⟩
  · rw [List.cons_append, acts, act, modify_bind]
    refine (acts_append hf).trans ?_
    rw [acts, act, bind_run (fsmFlush_last hop _)]
    rfl
  · show f.sent ++ _ = _
    rw [hmsgs.sent, List.append_assoc]
    rfl
  · rw [List.flatMap_append, List.flatMap_singleton]
    show _ ++ (f.setOpcode OP_RSLT_FIN).data = _
    rw [data_setOpcode, hdata]
    show ((s.setFlushCb true).resetOp OP_RSLT_SYN).data ++ _ = _
    rw [hempty, List.nil_append]
  · have hlow' : 0 < (f.setOpcode OP_RSLT_FIN).size := hlow
    rw [opcodeOf_contents hlow', getOpcode_setOpcode (by decide)]
  · rcases List.mem_append.mp hm with hm | hm
    · exact hmsgs.length m hm
    · rw [List.mem_singleton.mp hm, length_contents]
      exact hmsgs.streaming.high

/-- A server that knows nothing. -/
def emptyBackend : Backend Unit where
  pubkey := none
  decrypt _ w := (.error .exception, w)
  lookup _ _ w := (.ok false, w)
  source _ w := (none, w)
  exec _ w := (.malformed .exception, w)

/-- Its session at the start. -/
def emptySession : Session Unit := { Fsm.new true (fun _ => 0) [] with world := (), trace := [] }

/-- A result that does not fit into one message. -/
theorem result_streamed_long : ∃ s' msgs last, acts client (loop client emptyBackend 2) OP_RSLT_FIN
      (.resetOp OP_RSLT_SYN :: [List.replicate 2000 65].map .put ++ [.fsmFlush]) (emptySession.onFsm fun s => s.setFlushCb true) = .ok () s' ∧
    s'.sent = emptySession.sent ++ (msgs ++ [last]) ∧ (msgs ++ [last]).flatMap payload = [List.replicate 2000 65].flatten ∧
    (∀ m ∈ msgs, opcodeOf m = OP_RSLT_SYN) ∧ opcodeOf last = OP_RSLT_FIN ∧ ∀ m ∈ msgs ++ [last], m.length ≤ BUFFER_SZ :=
  result_streamed client_answers rfl rfl (Or.inr rfl) [List.replicate 2000 65] 0

end RedB.Comm
