import RedB.Comm.Parties

/-!
# The statements of a line

The console sends the statements of a line one after the other and waits only after the last of them. So
the server can be in the loop of an acknowledgement when a statement comes in: that ends the loop, the
statement is not run, and what comes next in the result is put behind its text.

A line is safe if and only if it has one statement at most, and that fits into one message
(`line_undisturbed_iff`).
-/

namespace RedB.Comm

open Actions

/-- The statement goes into one message, and the server gets it back. -/
def Cipher.Sendable (C : Cipher) (stmt : List UInt8) : Prop :=
  if C.secret stmt then ∃ code stmt', C.encrypt (BUFFER_SZ - OPCODE_SZ) stmt = some code ∧ C.decrypt code = .ok stmt' ∧ firstStmt stmt' = stmt
  else OPCODE_SZ + stmt.length ≤ BUFFER_SZ

/-- The two connections between statements. -/
structure Between (c s : Fsm) : Prop where
  console : c.isServer = false
  server : s.isServer = true
  cliLoop : c.loop = true
  srvLoop : s.loop = true
  cliInbox : c.inbox = []
  srvInbox : s.inbox = []
  /-- The server takes a statement. -/
  takes : dispatch srvFsm s.opsent OP_STMT_SYN = .rcvd

/-- No statement is lost, run twice or changed, and none gets into a result. -/
structure Undisturbed (E : Env) (stmts : List (List UInt8)) (σ : System) : Prop where
  /-- The statements that have been run are the first ones, in their order. -/
  order : σ.s.ran <+: stmts
  /-- When nothing can be done, all have been run. -/
  complete : (∀ t, σ.step E t = none) → σ.s.ran = stmts
  /-- The server does not leave its loop before. -/
  serves : σ.server = [] → σ.s.ran = stmts
  /-- The messages of the server carry what has been put for them. -/
  results : ∀ e ∈ σ.s.log, payload e.1 = e.2
  /-- What is shown is from these messages. -/
  shown : ∀ text ∈ σ.c.shown, text = [] ∨ ∃ e ∈ σ.s.log, text <:+: e.1

/-! ### Messages in the buffer -/

theorem size_of_contents {s : Fsm} {m : Msg} (h : s.contents = m) : s.size = m.length := by
  rw [← h, Fsm.length_contents]

theorem getOpcode_of_contents {s : Fsm} {b : UInt8} {m : Msg} (h : s.contents = b :: m) : s.getOpcode = b.toNat := by
  have hs : 0 < s.size := by
    rw [size_of_contents h]
    exact Nat.succ_pos _
  rw [← Fsm.opcodeOf_contents hs, h]
  rfl

/-- The type is set. -/
theorem contents_setType {s : Fsm} {b b' : UInt8} (h : s.contents = [b, b']) (type : ℕ) :
    (s.setType type).contents = [b, UInt8.ofNat type] := by
  have hs : s.size = 2 := size_of_contents h
  rw [Fsm.contents, hs] at h
  have hb : s.buffer 0 = b := (List.cons.inj h).1
  rw [← hb, Fsm.contents]
  show (List.range s.size).map _ = _
  rw [hs]
  rfl

/-- The encrypted statement comes behind the two bytes. -/
theorem contents_fill {x : Conn} (hs : x.size = OPCODE_SZ) (code : List UInt8) : (x.fill code).contents = x.contents ++ code := by
  refine List.ext_getElem ?_ fun i h1 h2 => ?_
  · rw [Fsm.length_contents, List.length_append, Fsm.length_contents]
    rfl
  · have hlen : (x.fill code).size = OPCODE_SZ + code.length := congrArg (· + code.length) hs
    rw [Fsm.length_contents, hlen] at h1
    rw [List.getElem_append]
    simp only [Fsm.contents, List.getElem_map, List.getElem_range, List.length_map, List.length_range, hs]
    by_cases hi : i < OPCODE_SZ
    · rw [dif_pos hi]
      exact if_pos hi
    · rw [dif_neg hi]
      refine (if_neg hi).trans ?_
      rw [List.getD_eq_getElem?_getD, List.getElem?_eq_getElem (by omega)]
      rfl

/-! ### A statement that is sent -/

/-- The message of a statement. -/
def Cipher.message (C : Cipher) (stmt : List UInt8) : Msg :=
  if C.secret stmt then 6 :: 1 :: (C.encrypt (BUFFER_SZ - OPCODE_SZ) stmt).getD [] else 6 :: 0 :: stmt

/-- How far the console is with a statement that goes into one message. -/
inductive Composing (C : Cipher) (stmt : List UInt8) : Conn → List Op → Prop where
  | start (x : Conn) : Composing C stmt x (stmtOps C stmt)
  | plain {x : Conn} {done left : List UInt8} : ¬C.secret stmt → stmt = done ++ left → x.contents = 6 :: 0 :: done →
      Composing C stmt x [.put left, .flush]
  | secret {x : Conn} : C.secret stmt → x.contents = [6, 0] → Composing C stmt x [.setType TYPE_ENC, .encrypt stmt, .flush]
  | typed {x : Conn} : C.secret stmt → x.contents = [6, 1] → Composing C stmt x [.encrypt stmt, .flush]
  | ready {x : Conn} : x.contents = C.message stmt → Composing C stmt x [.flush]
  | sending {x : Conn} : x.contents = C.message stmt → Composing C stmt x [.send, .reset, .callback]

/-- What an operation leaves alone that does not receive. -/
structure Aside (x x' : Conn) : Prop where
  isServer : x'.isServer = x.isServer
  loop : x'.loop = x.loop
  inbox : x'.inbox = x.inbox
  shown : x'.shown = x.shown

variable {C : Cipher} {E : Env} {stmt : List UInt8}

/-- The next operation either goes on with the message or sends it. -/
theorem Composing.turn (h : E.cipher.Sendable stmt) {x x' : Conn} {op : Op} {k k' : List Op} {out : List Msg}
    (hc : Composing E.cipher stmt x (op :: k)) (ht : op.turn E x k = some (x', k', out)) :
    Aside x x' ∧ ((out = [] ∧ Composing E.cipher stmt x' k') ∨ (out = [E.cipher.message stmt] ∧ k' = [.reset, .callback])) := by
  generalize hops : op :: k = ops at hc
  cases hc with
  | start =>
    obtain ⟨rfl, rfl⟩ := List.cons.inj hops
    obtain ⟨rfl, rfl, rfl⟩ : _ ∧ _ ∧ _ := by simpa [Op.turn] using ht
    refine ⟨⟨rfl, rfl, rfl, rfl⟩, .inl ⟨rfl, ?_⟩⟩
    by_cases hs : E.cipher.secret stmt
    · rw [if_pos hs]
      exact .secret hs rfl
    · rw [if_neg hs]
      exact @Composing.plain _ _ _ [] _ hs rfl rfl
  | @plain done left hs hd hx =>
    obtain ⟨rfl, rfl⟩ := List.cons.inj hops
    cases left with
    | nil =>
      obtain ⟨rfl, rfl, rfl⟩ : _ ∧ _ ∧ _ := by simpa [Op.turn] using ht
      refine ⟨⟨rfl, rfl, rfl, rfl⟩, .inl ⟨rfl, .ready ?_⟩⟩
      rw [hx, Cipher.message, if_neg hs, hd, List.append_nil]
    | cons b buf =>
      have hfull : x.size ≠ BUFFER_SZ := by
        rw [Cipher.Sendable, if_neg hs, hd, List.length_append, List.length_cons] at h
        rw [size_of_contents hx, List.length_cons, List.length_cons]
        simp only [OPCODE_SZ] at h
        omega
      obtain ⟨rfl, rfl, rfl⟩ : _ ∧ _ ∧ _ := by simpa [Op.turn, hfull] using ht
      refine ⟨⟨rfl, rfl, rfl, rfl⟩, .inl ⟨rfl, @Composing.plain _ _ _ (done ++ [b]) buf hs ?_ ?_⟩⟩
      · rw [hd, List.append_assoc]
        rfl
      · exact (Fsm.contents_putByte b).trans (by rw [hx]; rfl)
  | secret hs hx =>
    obtain ⟨rfl, rfl⟩ := List.cons.inj hops
    obtain ⟨rfl, rfl, rfl⟩ : _ ∧ _ ∧ _ := by simpa [Op.turn] using ht
    exact ⟨⟨rfl, rfl, rfl, rfl⟩, .inl ⟨rfl, .typed hs (contents_setType hx _)⟩⟩
  | typed hs hx =>
    obtain ⟨rfl, rfl⟩ := List.cons.inj hops
    rw [Cipher.Sendable, if_pos hs] at h
    obtain ⟨code, -, hcode, -⟩ := h
    have hsize : x.size = OPCODE_SZ := size_of_contents hx
    have hroom : x.remaining = BUFFER_SZ - OPCODE_SZ := by rw [Fsm.remaining, hsize]
    obtain ⟨rfl, rfl, rfl⟩ : _ ∧ _ ∧ _ := by simpa [Op.turn, hroom, hcode] using ht
    refine ⟨⟨rfl, rfl, rfl, rfl⟩, .inl ⟨rfl, .ready ?_⟩⟩
    rw [contents_fill hsize, hx, Cipher.message, if_pos hs, hcode]
    rfl
  | ready hx =>
    obtain ⟨rfl, rfl⟩ := List.cons.inj hops
    obtain ⟨rfl, rfl, rfl⟩ : _ ∧ _ ∧ _ := by simpa [Op.turn] using ht
    exact ⟨⟨rfl, rfl, rfl, rfl⟩, .inl ⟨rfl, .sending hx⟩⟩
  | sending hx =>
    obtain ⟨rfl, rfl⟩ := List.cons.inj hops
    obtain ⟨rfl, rfl, rfl⟩ : _ ∧ _ ∧ _ := by simpa [Op.turn] using ht
    exact ⟨⟨rfl, rfl, List.append_nil _, rfl⟩, .inr ⟨by rw [hx], rfl⟩⟩

/-! ### The server while it runs a statement -/

theorem contents_recv {s : Fsm} {m : Msg} {ms : List Msg} (h : s.inbox = m :: ms) : s.recv.contents = m.take BUFFER_SZ := by
  rw [Fsm.recv, h]
  refine List.ext_getElem ?_ fun i h1 h2 => ?_
  · exact Fsm.length_contents
  · simp only [Fsm.contents, List.getElem_map, List.getElem_range]
    rw [List.getD_eq_getElem?_getD, List.getElem?_eq_getElem h2]
    rfl

theorem inbox_recv (s : Fsm) : s.recv.inbox =
    match s.inbox with
    | [] => []
    | m :: ms => if m.length ≤ BUFFER_SZ then ms else m.drop BUFFER_SZ :: ms := by
  rw [Fsm.recv]
  cases h : s.inbox with
  | nil => simp
  | cons m ms => rfl

/-- What is left to be received are parts of what there was. -/
theorem mem_inbox_recv {s : Fsm} {m : Msg} (h : m ∈ s.recv.inbox) : ∃ m' ∈ s.inbox, m <:+: m' := by
  rw [inbox_recv] at h
  cases hi : s.inbox with
  | nil =>
    rw [hi] at h
    cases h
  | cons m' ms =>
    rw [hi] at h
    dsimp only at h
    split at h
    · exact ⟨m, List.mem_cons_of_mem _ h, List.infix_refl m⟩
    · rcases List.mem_cons.mp h with rfl | h
      · exact ⟨m', List.mem_cons_self .., (List.drop_suffix ..).isInfix⟩
      · exact ⟨m, List.mem_cons_of_mem _ h, List.infix_refl m⟩

/-- An acknowledgement, or an answer to the end of a connection. -/
def Short (m : Msg) : Prop := m.length = OPCODE_SZ ∧ opcodeOf m ≠ OP_STMT_SYN

/-- A short message is received whole. -/
theorem Short.recv {s : Fsm} {m : Msg} {ms : List Msg} (h : s.inbox = m :: ms) (hm : Short m) :
    s.recv.contents = m ∧ s.recv.inbox = ms := by
  have hlen : m.length ≤ BUFFER_SZ := hm.1.le.trans (by decide)
  rw [contents_recv h, inbox_recv, h]
  exact ⟨List.take_of_length_le hlen, if_pos hlen⟩

/-- What is not the console's alone, and not the start of a statement. -/
def Op.IsServing : Op → Prop
  | .setType _ | .encrypt _ | .exec | .print => False
  | _ => True

theorem Op.IsOutput.isServing {op : Op} (h : op.IsOutput) : op.IsServing := by
  cases op with
  | setType _ => exact h
  | encrypt _ => exact h
  | exec => exact h
  | print => exact h
  | _ => trivial

/-- A thread does nothing else. -/
def Serving (ops : List Op) : Prop := ∀ op ∈ ops, op.IsServing

theorem Serving.cons {op : Op} {k : List Op} (hk : Serving k) (h : op.IsServing) : Serving (op :: k) := by
  intro o ho
  rcases List.mem_cons.mp ho with rfl | ho
  · exact h
  · exact hk o ho

/-- What `flush` comes to. -/
theorem Serving.flush {k : List Op} (hk : Serving k) : Serving (.send :: .reset :: .callback :: k) :=
  Serving.cons (Serving.cons (Serving.cons hk trivial) trivial) trivial

/-- The size of the buffer is set, or nothing is put any more if the loop has ended. -/
def Op.SetsSize : Op → Prop
  | .reset | .resetOp _ | .resetType _ _ | .loop => True
  | _ => False

/-- The size of the buffer is set before anything is put. -/
def Pending (ops : List Op) : Prop := ops = [] ∨ ops = [.loop] ∨ ∃ op k, ops = op :: k ∧ op.IsReset

/-- The buffer of the server holds what has been put, or its size is set next. -/
structure Filling (x : Conn) (ops : List Op) : Prop where
  server : x.isServer = true
  serving : Serving ops
  data : (x.data = x.fresh ∧ OPCODE_SZ ≤ x.size) ∨ Pending ops
  log : ∀ e ∈ x.log, payload e.1 = e.2
  inbox : ∀ m ∈ x.inbox, Short m

/-- What the server does with a short message. -/
theorem handle_serving {x : Conn} (hx : x.isServer = true) (ho : x.getOpcode ≠ OP_STMT_SYN) : Serving x.handle := by
  have hsrv : Serving x.srvRcvd := by
    rw [Serving, Conn.srvRcvd]
    split <;> simp_all [Op.IsServing, OP_STMT_SYN]
  rw [Conn.handle]
  split
  · simp [Serving, Op.IsServing]
  · rwa [if_pos hx]

theorem Filling.turn {x x' : Conn} {op : Op} {k k' : List Op} {out : List Msg} (h : Filling x (op :: k))
    (ht : op.turn E x k = some (x', k', out)) :
    Filling x' k' ∧ x'.ran = x.ran ∧ ∃ l, x'.log = x.log ++ l ∧ out = l.map Prod.fst := by
  have hop := h.serving op (List.mem_cons_self ..)
  have hk : Serving k := fun o ho => h.serving o (List.mem_cons_of_mem _ ho)
  have hdata : ¬op.SetsSize → x.data = x.fresh ∧ OPCODE_SZ ≤ x.size := by
    intro hn
    refine h.data.resolve_right ?_
    rintro (he | he | ⟨op', k', he, hr⟩)
    · cases he
    · exact hn ((List.cons.inj he).1 ▸ trivial)
    · obtain rfl := (List.cons.inj he).1
      cases op with
      | reset => exact hn trivial
      | resetOp _ => exact hn trivial
      | resetType _ _ => exact hn trivial
      | _ => exact hr.elim
  -- The operations that leave the buffer alone, and those that set the size.
  have aside : ∀ (y : Conn) (l : List Op), y.isServer = x.isServer → y.data = x.data → y.fresh = x.fresh → y.size = x.size →
      y.log = x.log → y.inbox = x.inbox → Serving l → ¬op.SetsSize → Filling y l := by
    intro y l h1 h2 h3 h4 h5 h6 hl hn
    refine ⟨h1.trans h.server, hl, .inl ?_, h5 ▸ h.log, h6 ▸ h.inbox⟩
    rw [h2, h3, h4]
    exact hdata hn
  have anew : ∀ (f : Fsm → Fsm), (f x.toFsm).isServer = x.isServer → (f x.toFsm).inbox = x.inbox → (f x.toFsm).size = OPCODE_SZ →
      Filling (x.anew f) k := by
    intro f h1 h2 h3
    refine ⟨h1.trans h.server, hk, .inl ⟨?_, h3.ge⟩, h.log, fun m hm => h.inbox m (h2 ▸ hm)⟩
    have hlen : (x.anew f).data.length = 0 := Fsm.length_data.trans (by rw [show (x.anew f).size = OPCODE_SZ from h3, Nat.sub_self])
    exact List.length_eq_zero_iff.mp hlen
  have store : ∀ (b : UInt8) (l : List Op), Serving l → ¬op.SetsSize → Filling (x.store b) l := by
    intro b l hl hn
    obtain ⟨h1, h2⟩ := hdata hn
    refine ⟨h.server, hl, .inl ⟨(Fsm.data_putByte h2 b).trans ?_, Nat.le_succ_of_le h2⟩, h.log, h.inbox⟩
    rw [h1]
    rfl
  cases op with
  | loop =>
    rw [Op.turn] at ht
    split at ht
    · rename_i hloop
      split at ht
      · cases ht
      · rename_i hin
        obtain ⟨m, ms, hm⟩ := List.exists_cons_of_ne_nil hin
        obtain ⟨hcont, hrest⟩ := (h.inbox m (hm ▸ List.mem_cons_self ..)).recv hm
        have hshort := h.inbox m (hm ▸ List.mem_cons_self ..)
        have hsize : (x.anew Fsm.recv).size = OPCODE_SZ := (size_of_contents hcont).trans hshort.1
        have hdata' : (x.anew Fsm.recv).data = [] := by
          refine List.length_eq_zero_iff.mp (Fsm.length_data.trans ?_)
          rw [hsize, Nat.sub_self]
        have hop' : (x.anew Fsm.recv).getOpcode ≠ OP_STMT_SYN := by
          have hpos : 0 < (x.anew Fsm.recv).size := hsize ▸ (by decide)
          rw [← Fsm.opcodeOf_contents hpos, show (x.anew Fsm.recv).contents = m from hcont]
          exact hshort.2
        have hserver : (x.anew Fsm.recv).isServer = true := by
          show x.toFsm.recv.isServer = true
          rw [Fsm.recv, hm]
          exact h.server
        rw [if_neg (by rw [hsize]; decide)] at ht
        obtain ⟨rfl, rfl, rfl⟩ : _ ∧ _ ∧ _ := by simpa using ht
        refine ⟨⟨hserver, fun op ho => ?_, .inl ⟨hdata', hsize.ge⟩, h.log, fun m' hm' => ?_⟩, rfl, [], (List.append_nil _).symm, rfl⟩
        · rcases List.mem_append.mp ho with ho | ho
          · exact handle_serving hserver hop' op ho
          · exact (show Serving (.loop :: k) from hk.cons trivial) op ho
        · rw [show (x.anew Fsm.recv).inbox = ms from hrest] at hm'
          exact h.inbox m' (hm ▸ List.mem_cons_of_mem _ hm')
    · obtain ⟨rfl, rfl, rfl⟩ : _ ∧ _ ∧ _ := by simpa using ht
      refine ⟨⟨h.server, hk, ?_, h.log, h.inbox⟩, rfl, [], (List.append_nil _).symm, rfl⟩
      rcases h.data with hd | he | he | ⟨op', k', he, hr⟩
      · exact .inl hd
      · cases he
      · exact .inr (.inl (List.cons.inj he).2)
      · exact ((List.cons.inj he).1 ▸ hr : Op.IsReset .loop).elim
  | reset =>
    obtain ⟨rfl, rfl, rfl⟩ : _ ∧ _ ∧ _ := by simpa [Op.turn] using ht
    exact ⟨anew _ rfl rfl rfl, rfl, [], (List.append_nil _).symm, rfl⟩
  | resetOp opcode =>
    obtain ⟨rfl, rfl, rfl⟩ : _ ∧ _ ∧ _ := by simpa [Op.turn] using ht
    exact ⟨anew _ rfl rfl rfl, rfl, [], (List.append_nil _).symm, rfl⟩
  | resetType opcode type =>
    obtain ⟨rfl, rfl, rfl⟩ : _ ∧ _ ∧ _ := by simpa [Op.turn] using ht
    exact ⟨anew _ rfl rfl rfl, rfl, [], (List.append_nil _).symm, rfl⟩
  | setType _ => exact hop.elim
  | put buf =>
    cases buf with
    | nil =>
      obtain ⟨rfl, rfl, rfl⟩ : _ ∧ _ ∧ _ := by simpa [Op.turn] using ht
      exact ⟨aside _ _ rfl rfl rfl rfl rfl rfl hk id, rfl, [], (List.append_nil _).symm, rfl⟩
    | cons b buf =>
      rw [Op.turn] at ht
      split at ht
      · obtain ⟨rfl, rfl, rfl⟩ : _ ∧ _ ∧ _ := by simpa using ht
        refine ⟨aside _ _ rfl rfl rfl rfl rfl rfl ?_ id, rfl, [], (List.append_nil _).symm, rfl⟩
        exact Serving.flush (Serving.cons (hk.cons trivial) trivial)
      · obtain ⟨rfl, rfl, rfl⟩ : _ ∧ _ ∧ _ := by simpa using ht
        exact ⟨store b _ (hk.cons trivial) id, rfl, [], (List.append_nil _).symm, rfl⟩
  | store b =>
    obtain ⟨rfl, rfl, rfl⟩ : _ ∧ _ ∧ _ := by simpa [Op.turn] using ht
    exact ⟨store b k hk id, rfl, [], (List.append_nil _).symm, rfl⟩
  | flush =>
    obtain ⟨rfl, rfl, rfl⟩ : _ ∧ _ ∧ _ := by simpa [Op.turn] using ht
    exact ⟨aside _ _ rfl rfl rfl rfl rfl rfl hk.flush id, rfl, [], (List.append_nil _).symm, rfl⟩
  | fsmFlush opcode =>
    obtain ⟨rfl, rfl, rfl⟩ : _ ∧ _ ∧ _ := by simpa [Op.turn] using ht
    exact ⟨aside _ _ rfl (Fsm.data_setOpcode _) rfl rfl rfl rfl hk.flush id, rfl, [], (List.append_nil _).symm, rfl⟩
  | send =>
    obtain ⟨rfl, rfl, rfl⟩ : _ ∧ _ ∧ _ := by simpa [Op.turn] using ht
    refine ⟨⟨h.server, hk, .inl (hdata id), fun e he => ?_, fun m hm => ?_⟩, rfl, [(x.contents, x.fresh)], rfl, rfl⟩
    · rcases List.mem_append.mp he with he | he
      · exact h.log e he
      · obtain rfl := List.mem_singleton.mp he
        exact (hdata id).1
    · exact h.inbox m (by simpa [Conn.sends, Fsm.send] using hm)
  | callback =>
    obtain ⟨rfl, rfl, rfl⟩ : _ ∧ _ ∧ _ := by simpa [Op.turn] using ht
    refine ⟨aside _ _ rfl rfl rfl rfl rfl rfl ?_ id, rfl, [], (List.append_nil _).symm, rfl⟩
    split
    · exact Serving.cons (hk.cons trivial) trivial
    · exact hk
  | cont =>
    obtain ⟨rfl, rfl, rfl⟩ : _ ∧ _ ∧ _ := by simpa [Op.turn] using ht
    exact ⟨aside _ _ rfl rfl rfl rfl rfl rfl hk id, rfl, [], (List.append_nil _).symm, rfl⟩
  | term =>
    obtain ⟨rfl, rfl, rfl⟩ : _ ∧ _ ∧ _ := by simpa [Op.turn] using ht
    exact ⟨aside _ _ rfl rfl rfl rfl rfl rfl hk id, rfl, [], (List.append_nil _).symm, rfl⟩
  | encrypt _ => exact hop.elim
  | exec => exact hop.elim
  | print => exact hop.elim

/-! ### The console while it receives -/

/-- Whatever is sent is short, the buffer holding a short message now if `b`. -/
def Calm : Bool → List Op → Prop
  | _, [] => True
  | _, .resetOp opcode :: k => opcode < 256 ∧ opcode ≠ OP_STMT_SYN ∧ Calm true k
  | _, .resetType opcode _ :: k => opcode < 256 ∧ opcode ≠ OP_STMT_SYN ∧ Calm true k
  | b, .flush :: k => b = true ∧ Calm true k
  | b, .send :: k => b = true ∧ Calm true k
  | b, .reset :: k => Calm b k
  | b, .callback :: k => Calm b k
  | b, .term :: k => Calm b k
  | _, .loop :: k => Calm false k
  | _, _ :: _ => False

/-- A text of the server, or nothing. -/
def FromLog (log : List (Msg × List UInt8)) (text : List UInt8) : Prop := text = [] ∨ ∃ e ∈ log, text <:+: e.1

theorem FromLog.part {log : List (Msg × List UInt8)} {text text' : List UInt8} (h : FromLog log text) (hi : text' <:+: text) :
    FromLog log text' := by
  rcases h with rfl | ⟨e, he, h⟩
  · exact .inl (List.infix_nil.mp hi)
  · exact .inr ⟨e, he, hi.trans h⟩

theorem FromLog.append {log : List (Msg × List UInt8)} {text : List UInt8} (h : FromLog log text) (l : List (Msg × List UInt8)) :
    FromLog (log ++ l) text :=
  h.imp_right fun ⟨e, he, h⟩ => ⟨e, List.mem_append_left _ he, h⟩

/-- What the receiving thread does next. -/
inductive Receives (log : List (Msg × List UInt8)) (x : Conn) : List Op → Prop where
  | shows {k : List Op} : FromLog log x.data → Calm false k → Receives log x (.print :: k)
  | calm {b : Bool} {k : List Op} : (b = true → x.size = OPCODE_SZ ∧ x.getOpcode ≠ OP_STMT_SYN) → Calm b k → Receives log x k

theorem Receives.idle {log : List (Msg × List UInt8)} {x : Conn} {k : List Op} (hk : Calm false k) : Receives log x k :=
  @Receives.calm log x false k (by simp) hk

/-- The console has received from the server only, and has shown nothing else. -/
structure Showing (log : List (Msg × List UInt8)) (x : Conn) (ops : List Op) : Prop where
  console : x.isServer = false
  next : Receives log x ops
  inbox : ∀ m ∈ x.inbox, FromLog log m
  shown : ∀ text ∈ x.shown, FromLog log text

/-- The messages of the server are more. -/
theorem Showing.append {log : List (Msg × List UInt8)} {x : Conn} {ops : List Op} (h : Showing log x ops) (l : List (Msg × List UInt8)) :
    Showing (log ++ l) (x.deliver (l.map Prod.fst)) ops where
  console := h.console
  next := by
    cases h.next with
    | shows hd hk => exact .shows (hd.append l) hk
    | calm hb hk => exact .calm hb hk
  inbox m hm := by
    rcases List.mem_append.mp hm with hm | hm
    · exact (h.inbox m hm).append l
    · obtain ⟨e, he, rfl⟩ := List.mem_map.mp hm
      exact .inr ⟨e, List.mem_append_right _ he, List.infix_refl _⟩
  shown text ht := (h.shown text ht).append l

/-- What the console does with a message. -/
theorem handle_receives {log : List (Msg × List UInt8)} {x : Conn} {k : List Op} (hx : x.isServer = false)
    (hd : FromLog log x.data) (hk : Calm false k) : Receives log x (x.handle ++ .loop :: k) := by
  rw [Conn.handle]
  split
  · exact .idle hk
  · rw [if_neg (by simp [hx]), Conn.cliRcvd]
    split
    · exact .idle ⟨by decide, by decide, rfl, hk⟩
    · exact .idle hk
    · exact .shows hd ⟨by decide, by decide, rfl, hk⟩
    · exact .shows hd hk
    · exact .idle hk
    · exact .idle hk
    · exact .idle hk
    · exact .idle hk
    · exact .shows hd hk
    · exact .idle hk

theorem Showing.turn {log : List (Msg × List UInt8)} {x x' : Conn} {op : Op} {k k' : List Op} {out : List Msg}
    (h : Showing log x (op :: k)) (ht : op.turn E x k = some (x', k', out)) : Showing log x' k' ∧ ∀ m ∈ out, Short m := by
  -- The operations that receive and show nothing.
  have keep : ∀ (y : Conn) (l : List Op), y.isServer = x.isServer → y.inbox = x.inbox → y.shown = x.shown → Receives log y l →
      Showing log y l := by
    intro y l h1 h2 h3 hn
    exact ⟨h1.trans h.console, hn, h2 ▸ h.inbox, h3 ▸ h.shown⟩
  have none : ∀ m ∈ ([] : List Msg), Short m := by simp
  cases h.next with
  | shows hd hk =>
    obtain ⟨rfl, rfl, rfl⟩ : _ ∧ _ ∧ _ := by simpa [Op.turn] using ht
    refine ⟨⟨h.console, .idle hk, h.inbox, fun text ht => ?_⟩, none⟩
    rcases List.mem_append.mp ht with ht | ht
    · exact h.shown text ht
    · obtain rfl := List.mem_singleton.mp ht
      exact hd.part (List.takeWhile_prefix _).isInfix
  | @calm b _ hb hk =>
    cases op with
    | loop =>
      have hk : Calm false k := hk
      rw [Op.turn] at ht
      split at ht
      · split at ht
        · cases ht
        · rename_i hin
          obtain ⟨m, ms, hm⟩ := List.exists_cons_of_ne_nil hin
          have hcont := contents_recv hm
          have hserver : (x.anew Fsm.recv).isServer = false := by
            show x.toFsm.recv.isServer = false
            rw [Fsm.recv, hm]
            exact h.console
          have hdata : FromLog log (x.anew Fsm.recv).data := by
            refine (h.inbox m (hm ▸ List.mem_cons_self ..)).part ?_
            show payload x.toFsm.recv.contents <:+: m
            rw [hcont, payload]
            exact ((List.drop_suffix ..).isInfix).trans (List.take_prefix ..).isInfix
          have hinbox : ∀ m ∈ (x.anew Fsm.recv).inbox, FromLog log m := by
            intro m' hm'
            obtain ⟨m'', hm'', hi⟩ := mem_inbox_recv hm'
            exact (h.inbox m'' hm'').part hi
          dsimp only at ht
          split at ht
          · obtain ⟨rfl, rfl, rfl⟩ : _ ∧ _ ∧ _ := by simpa using ht
            exact ⟨⟨hserver, .idle hk, hinbox, h.shown⟩, none⟩
          · obtain ⟨rfl, rfl, rfl⟩ : _ ∧ _ ∧ _ := by simpa using ht
            exact ⟨⟨hserver, handle_receives hserver hdata hk, hinbox, h.shown⟩, none⟩
      · obtain ⟨rfl, rfl, rfl⟩ : _ ∧ _ ∧ _ := by simpa using ht
        exact ⟨keep _ _ rfl rfl rfl (.idle hk), none⟩
    | reset =>
      obtain ⟨rfl, rfl, rfl⟩ : _ ∧ _ ∧ _ := by simpa [Op.turn] using ht
      exact ⟨keep _ _ rfl rfl rfl (.calm (fun ht => ⟨rfl, (hb ht).2⟩) hk), none⟩
    | resetOp opcode =>
      obtain ⟨rfl, rfl, rfl⟩ : _ ∧ _ ∧ _ := by simpa [Op.turn] using ht
      obtain ⟨h1, h2, hk⟩ := hk
      refine ⟨keep _ _ rfl rfl rfl (.calm (fun _ => ⟨rfl, ?_⟩) hk), none⟩
      exact (Fsm.getOpcode_resetOp h1).trans_ne h2
    | resetType opcode type =>
      obtain ⟨rfl, rfl, rfl⟩ : _ ∧ _ ∧ _ := by simpa [Op.turn] using ht
      obtain ⟨h1, h2, hk⟩ := hk
      refine ⟨keep _ _ rfl rfl rfl (.calm (fun _ => ⟨rfl, ?_⟩) hk), none⟩
      exact ((Fsm.getOpcode_setType _).trans (Fsm.getOpcode_resetOp h1)).trans_ne h2
    | flush =>
      obtain ⟨rfl, rfl, rfl⟩ : _ ∧ _ ∧ _ := by simpa [Op.turn] using ht
      obtain ⟨h1, hk⟩ := hk
      exact ⟨keep _ _ rfl rfl rfl (.calm hb ⟨h1, hk⟩), none⟩
    | send =>
      obtain ⟨rfl, rfl, rfl⟩ : _ ∧ _ ∧ _ := by simpa [Op.turn] using ht
      obtain ⟨h1, hk⟩ := hk
      obtain ⟨h2, h3⟩ := hb h1
      refine ⟨keep _ _ rfl (List.append_nil _) rfl (.calm (fun _ => ⟨h2, h3⟩) hk), fun m hm => ?_⟩
      obtain rfl := List.mem_singleton.mp hm
      refine ⟨Fsm.length_contents.trans h2, ?_⟩
      rwa [Fsm.opcodeOf_contents (by rw [h2]; decide)]
    | callback =>
      obtain ⟨rfl, rfl, rfl⟩ : _ ∧ _ ∧ _ := by simpa [Op.turn, h.console] using ht
      exact ⟨keep _ _ rfl rfl rfl (.calm hb hk), none⟩
    | term =>
      obtain ⟨rfl, rfl, rfl⟩ : _ ∧ _ ∧ _ := by simpa [Op.turn] using ht
      exact ⟨keep _ _ rfl rfl rfl (.calm hb hk), none⟩
    | _ => exact hk.elim

/-! ### One statement -/

/-- The console has received nothing since the line came in. -/
structure Waiting (σ : System) : Prop where
  console : σ.c.isServer = false
  loop : σ.c.loop = true
  inbox : σ.c.inbox = []
  agent : σ.agent = [.loop]
  shown : σ.c.shown = []
  server : σ.s.isServer = true
  ran : σ.s.ran = []
  log : σ.s.log = []

/-- And neither has the server. -/
structure Idle (σ : System) : Prop extends Waiting σ where
  srvLoop : σ.s.loop = true
  takes : dispatch srvFsm σ.s.opsent OP_STMT_SYN = .rcvd
  serverOps : σ.server = [.loop]

/-- What is left of `flush` after the message has been sent. -/
def Flushed (ops : List Op) : Prop := ops = [.reset, .callback] ∨ ops = [.callback] ∨ ops = []

/-- How far a line of one statement is. -/
inductive Phase (E : Env) (stmt : List UInt8) (σ : System) : Prop where
  | composing : Idle σ → σ.s.inbox = [] → Composing E.cipher stmt σ.c σ.input → Phase E stmt σ
  | sent : Idle σ → σ.s.inbox = [E.cipher.message stmt] → Flushed σ.input → Phase E stmt σ
  | taken : Waiting σ → σ.s.inbox = [] → Flushed σ.input → σ.server = [.exec, .loop] → σ.s.text E.cipher = .ok stmt → Phase E stmt σ
  | running : Flushed σ.input → σ.s.ran = [stmt] → Filling σ.s σ.server → Showing σ.s.log σ.c σ.agent → Phase E stmt σ

theorem Waiting.showing {σ : System} (h : Waiting σ) : Showing [] σ.c σ.agent where
  console := h.console
  next := by
    rw [h.agent]
    exact .idle trivial
  inbox := by simp [h.inbox]
  shown := by simp [h.shown]

/-- The rest of `flush` does not disturb the thread that receives. -/
theorem Showing.sent {log : List (Msg × List UInt8)} {x x' : Conn} {op : Op} {ops k k' : List Op} {out : List Msg}
    (h : Showing log x ops) (hs : Flushed (op :: k)) (ht : op.turn E x k = some (x', k', out)) :
    Showing log x' ops ∧ Flushed k' ∧ out = [] := by
  rcases hs with hs | hs | hs
  · obtain ⟨rfl, rfl⟩ := List.cons.inj hs
    obtain ⟨rfl, rfl, rfl⟩ : _ ∧ _ ∧ _ := by simpa [Op.turn] using ht
    refine ⟨⟨h.console, ?_, h.inbox, h.shown⟩, .inr (.inl rfl), rfl⟩
    cases h.next with
    | shows _ hk => exact .shows (.inl Fsm.data_reset) hk
    | calm hb hk => exact .calm (fun ht => ⟨rfl, (hb ht).2⟩) hk
  · obtain ⟨rfl, rfl⟩ := List.cons.inj hs
    obtain ⟨rfl, rfl, rfl⟩ : _ ∧ _ ∧ _ := by simpa [Op.turn, h.console] using ht
    exact ⟨h, .inr (.inr rfl), rfl⟩
  · cases hs

theorem Filling.deliver {x : Conn} {ops : List Op} (h : Filling x ops) {msgs : List Msg} (hm : ∀ m ∈ msgs, Short m) :
    Filling (x.deliver msgs) ops :=
  ⟨h.server, h.serving, h.data, h.log, fun m hin => (List.mem_append.mp hin).elim (h.inbox m) (hm m)⟩

theorem getType_of_contents {s : Fsm} {b b' : UInt8} {m : Msg} (h : s.contents = b :: b' :: m) : s.getType = b'.toNat ∧ s.data = m := by
  refine ⟨?_, by rw [Fsm.data, h]; rfl⟩
  have hsize := size_of_contents h
  rw [Fsm.contents, hsize, List.length_cons, List.length_cons, List.range_succ_eq_map, List.range_succ_eq_map] at h
  exact congrArg UInt8.toNat (List.cons.inj (List.cons.inj h).2).1

/-- A message by which the server gets a statement. -/
structure Cipher.Gets (C : Cipher) (m : Msg) (stmt : List UInt8) : Prop where
  length_le : m.length ≤ BUFFER_SZ
  opcode : ∃ b m', m = 6 :: b :: m'
  text : ∀ x : Conn, x.contents = m → x.text C = .ok stmt

theorem Cipher.gets_plain (C : Cipher) {text : List UInt8} (h : OPCODE_SZ + text.length ≤ BUFFER_SZ) : C.Gets (6 :: 0 :: text) text where
  length_le := (Nat.add_comm text.length 2).le.trans h
  opcode := ⟨_, _, rfl⟩
  text x hx := by
    obtain ⟨h1, h2⟩ := getType_of_contents hx
    rw [Conn.text, h1, h2, if_neg (by decide)]

theorem Cipher.gets_secret (C : Cipher) {stmt code stmt' : List UInt8} (h : C.encrypt (BUFFER_SZ - OPCODE_SZ) stmt = some code)
    (hd : C.decrypt code = .ok stmt') : C.Gets (6 :: 1 :: code) (firstStmt stmt') where
  length_le := by
    have hfits := C.fits h
    rw [List.length_cons, List.length_cons]
    have : OPCODE_SZ = 2 := rfl
    have : BUFFER_SZ = 1460 := rfl
    omega
  opcode := ⟨_, _, rfl⟩
  text x hx := by
    obtain ⟨h1, h2⟩ := getType_of_contents hx
    rw [Conn.text, h1, h2, if_pos (by decide), hd]
    rfl

/-- The server gets the statement out of its message. -/
theorem Cipher.Sendable.gets (h : C.Sendable stmt) : C.Gets (C.message stmt) stmt := by
  rw [Cipher.message]
  rw [Cipher.Sendable] at h
  split at h
  · rename_i hs
    obtain ⟨code, stmt', hcode, hdec, hfirst⟩ := h
    rw [if_pos hs, hcode]
    exact hfirst ▸ C.gets_secret hcode hdec
  · rename_i hs
    rw [if_neg hs]
    exact C.gets_plain h

/-- A statement is received. -/
theorem Cipher.Gets.turn {m : Msg} {ms : List Msg} (h : E.cipher.Gets m stmt) {x : Conn} (hserver : x.isServer = true)
    (hloop : x.loop = true) (htakes : dispatch srvFsm x.opsent OP_STMT_SYN = .rcvd) (hin : x.inbox = m :: ms) (k : List Op) :
    Op.turn E x k .loop = some (x.anew Fsm.recv, .exec :: .loop :: k, []) ∧ (x.anew Fsm.recv).text E.cipher = .ok stmt ∧
      (x.anew Fsm.recv).isServer = true ∧ (x.anew Fsm.recv).inbox = ms := by
  have hcont : (x.anew Fsm.recv).contents = m := (contents_recv hin).trans (List.take_of_length_le h.length_le)
  have hrest : (x.anew Fsm.recv).inbox = ms := by
    show x.toFsm.recv.inbox = ms
    rw [inbox_recv, hin]
    exact if_pos h.length_le
  have hserver : (x.anew Fsm.recv).isServer = true := by
    show x.toFsm.recv.isServer = true
    rw [Fsm.recv, hin]
    exact hserver
  obtain ⟨b, m', hm⟩ := h.opcode
  have hop : (x.anew Fsm.recv).getOpcode = OP_STMT_SYN := getOpcode_of_contents (hcont.trans hm)
  have hhandle : (x.anew Fsm.recv).handle = [.exec] := by
    rw [Conn.handle, hop, Conn.table, if_pos hserver, show (x.anew Fsm.recv).opsent = x.opsent from Fsm.opsent_recv, htakes]
    dsimp only
    rw [if_pos hserver, Conn.srvRcvd, hop]
    rfl
  refine ⟨?_, h.text _ hcont, hserver, hrest⟩
  rw [Op.turn, if_pos hloop, if_neg (by rw [hin]; exact List.cons_ne_nil _ _)]
  dsimp only
  rw [if_neg (by rw [size_of_contents hcont, hm]; exact Nat.succ_ne_zero _), hhandle]
  rfl

/-- The first operation of a thread. -/
theorem step_input {σ σ' : System} (h : σ.step E .input = some σ') : ∃ op k x' k' out, σ.input = op :: k ∧
    op.turn E σ.c k = some (x', k', out) ∧ σ' = { σ with c := x', input := k', s := σ.s.deliver out } := by
  rw [System.step] at h
  split at h
  · cases h
  · rename_i op k hops
    obtain ⟨⟨x', k', out⟩, ht, rfl⟩ := Option.map_eq_some_iff.mp h
    exact ⟨op, k, x', k', out, hops, ht, rfl⟩

theorem step_agent {σ σ' : System} (h : σ.step E .agent = some σ') : ∃ op k x' k' out, σ.agent = op :: k ∧
    op.turn E σ.c k = some (x', k', out) ∧ σ' = { σ with c := x', agent := k', s := σ.s.deliver out } := by
  rw [System.step] at h
  split at h
  · cases h
  · rename_i op k hops
    obtain ⟨⟨x', k', out⟩, ht, rfl⟩ := Option.map_eq_some_iff.mp h
    exact ⟨op, k, x', k', out, hops, ht, rfl⟩

theorem step_server {σ σ' : System} (h : σ.step E .server = some σ') : ∃ op k x' k' out, σ.server = op :: k ∧
    op.turn E σ.s k = some (x', k', out) ∧ σ' = { σ with s := x', server := k', c := σ.c.deliver out } := by
  rw [System.step] at h
  split at h
  · cases h
  · rename_i op k hops
    obtain ⟨⟨x', k', out⟩, ht, rfl⟩ := Option.map_eq_some_iff.mp h
    exact ⟨op, k, x', k', out, hops, ht, rfl⟩

/-- A loop waits while nothing is there. -/
theorem turn_loop_none {x : Conn} (hl : x.loop = true) (hin : x.inbox = []) (k : List Op) : Op.turn E x k .loop = none := by
  rw [Op.turn, if_pos hl, if_pos hin]

/-- Nothing but a loop waits. -/
theorem turn_ne_none {op : Op} (h : op ≠ .loop) (x : Conn) (k : List Op) : op.turn E x k ≠ none := by
  cases op with
  | loop => exact absurd rfl h
  | put buf =>
    cases buf with
    | nil => exact Option.some_ne_none _
    | cons b buf =>
      rw [Op.turn]
      split <;> exact Option.some_ne_none _
  | encrypt stmt =>
    rw [Op.turn]
    split <;> exact Option.some_ne_none _
  | exec =>
    rw [Op.turn]
    split <;> exact Option.some_ne_none _
  | _ => exact Option.some_ne_none _

/-- The rest of `flush` leaves the console waiting. -/
theorem Flushed.turn {x x' : Conn} {op : Op} {k k' : List Op} {out : List Msg} (hx : x.isServer = false) (hs : Flushed (op :: k))
    (ht : op.turn E x k = some (x', k', out)) : Aside x x' ∧ Flushed k' ∧ out = [] := by
  rcases hs with hs | hs | hs
  · obtain ⟨rfl, rfl⟩ := List.cons.inj hs
    obtain ⟨rfl, rfl, rfl⟩ : _ ∧ _ ∧ _ := by simpa [Op.turn] using ht
    exact ⟨⟨rfl, rfl, rfl, rfl⟩, .inr (.inl rfl), rfl⟩
  · obtain ⟨rfl, rfl⟩ := List.cons.inj hs
    obtain ⟨rfl, rfl, rfl⟩ : _ ∧ _ ∧ _ := by simpa [Op.turn, hx] using ht
    exact ⟨⟨rfl, rfl, rfl, rfl⟩, .inr (.inr rfl), rfl⟩
  · cases hs

theorem Waiting.aside {σ : System} {x : Conn} {ops : List Op} (h : Waiting σ) (ha : Aside σ.c x) :
    Waiting { σ with c := x, input := ops } where
  console := ha.isServer.trans h.console
  loop := ha.loop.trans h.loop
  inbox := ha.inbox.trans h.inbox
  agent := h.agent
  shown := ha.shown.trans h.shown
  server := h.server
  ran := h.ran
  log := h.log

theorem deliver_nil (x : Conn) : x.deliver [] = x := by
  rw [Conn.deliver, List.append_nil]

theorem Phase.step_input {σ σ' : System} (hs : E.cipher.Sendable stmt) (h : Phase E stmt σ) (ht : σ.step E .input = some σ') :
    Phase E stmt σ' := by
  obtain ⟨op, k, x', k', out, hops, hturn, rfl⟩ := Comm.step_input ht
  cases h with
  | composing hi hin hc =>
    rw [hops] at hc
    obtain ⟨haside, ⟨rfl, hc'⟩ | ⟨rfl, rfl⟩⟩ := hc.turn hs hturn
    · rw [deliver_nil]
      exact .composing ⟨hi.toWaiting.aside haside, hi.srvLoop, hi.takes, hi.serverOps⟩ hin hc'
    · refine .sent ⟨?_, hi.srvLoop, hi.takes, hi.serverOps⟩ ?_ (.inl rfl)
      · have hw : Waiting { σ with c := x', input := [.reset, .callback] } := hi.toWaiting.aside haside
        exact ⟨hw.console, hw.loop, hw.inbox, hw.agent, hw.shown, hw.server, hw.ran, hw.log⟩
      · show σ.s.inbox ++ [_] = _
        rw [hin]
        rfl
  | sent hi hin hf =>
    rw [hops] at hf
    obtain ⟨haside, hf', rfl⟩ := hf.turn hi.console hturn
    rw [deliver_nil]
    exact .sent ⟨hi.toWaiting.aside haside, hi.srvLoop, hi.takes, hi.serverOps⟩ hin hf'
  | taken hw hin hf hserver htext =>
    rw [hops] at hf
    obtain ⟨haside, hf', rfl⟩ := hf.turn hw.console hturn
    rw [deliver_nil]
    exact .taken (hw.aside haside) hin hf' hserver htext
  | running hf hran hfill hshow =>
    rw [hops] at hf
    obtain ⟨hshow', hf', rfl⟩ := hshow.sent hf hturn
    rw [deliver_nil]
    exact .running hf' hran hfill hshow'

/-- The thread that receives waits until the server has sent something. -/
theorem Waiting.agent_none {σ : System} (h : Waiting σ) : σ.step E .agent = none := by
  rw [System.step, h.agent]
  dsimp only
  rw [turn_loop_none h.loop h.inbox]
  rfl

theorem Phase.step_agent {σ σ' : System} (h : Phase E stmt σ) (ht : σ.step E .agent = some σ') : Phase E stmt σ' := by
  cases h with
  | composing hi => rw [hi.agent_none] at ht; cases ht
  | sent hi => rw [hi.agent_none] at ht; cases ht
  | taken hw => rw [hw.agent_none] at ht; cases ht
  | running hf hran hfill hshow =>
    obtain ⟨op, k, x', k', out, hops, hturn, rfl⟩ := Comm.step_agent ht
    rw [hops] at hshow
    obtain ⟨hshow', hshort⟩ := hshow.turn hturn
    exact .running hf hran (hfill.deliver hshort) hshow'

/-- The output of the statement comes next. -/
theorem filling_exec {x : Conn} (hx : x.isServer = true) (hin : x.inbox = []) (hlog : x.log = []) (p : Program) :
    Filling x (p.ops ++ [.loop]) where
  server := hx
  serving op ho := by
    rcases List.mem_append.mp ho with ho | ho
    · exact (p.output op ho).isServing
    · obtain rfl := List.mem_singleton.mp ho
      trivial
  data := by
    have hstart := p.starts
    cases hp : p.ops with
    | nil => exact .inr (.inr (.inl rfl))
    | cons op k =>
      rw [hp] at hstart
      exact .inr (.inr (.inr ⟨op, k ++ [.loop], rfl, hstart op rfl⟩))
  log := by simp [hlog]
  inbox := by simp [hin]

theorem Phase.step_server {σ σ' : System} (hs : E.cipher.Sendable stmt) (h : Phase E stmt σ) (ht : σ.step E .server = some σ') :
    Phase E stmt σ' := by
  obtain ⟨op, k, x', k', out, hops, hturn, rfl⟩ := Comm.step_server ht
  cases h with
  | composing hi hin hc =>
    obtain ⟨rfl, rfl⟩ := List.cons.inj (hops.symm.trans hi.serverOps)
    rw [turn_loop_none hi.srvLoop hin] at hturn
    cases hturn
  | sent hi hin hf =>
    obtain ⟨rfl, rfl⟩ := List.cons.inj (hops.symm.trans hi.serverOps)
    obtain ⟨hrecv, htext, hserver, hinbox⟩ := hs.gets.turn hi.server hi.srvLoop hi.takes hin []
    obtain ⟨rfl, rfl, rfl⟩ : _ ∧ _ ∧ _ := by simpa using hrecv.symm.trans hturn
    refine .taken ⟨hi.console, hi.loop, ?_, hi.agent, hi.shown, hserver, hi.ran, hi.log⟩ hinbox hf rfl htext
    show σ.c.inbox ++ [] = []
    rw [List.append_nil]
    exact hi.inbox
  | taken hw hin hf hserver htext =>
    obtain ⟨rfl, rfl⟩ := List.cons.inj (hops.symm.trans hserver)
    rw [Op.turn, htext] at hturn
    obtain ⟨rfl, rfl, rfl⟩ : _ ∧ _ ∧ _ := by simpa using hturn
    rw [deliver_nil]
    have hfill : Filling { σ.s with ran := σ.s.ran ++ [stmt] } ((E.program σ.s.ran.length stmt).ops ++ [.loop]) :=
      filling_exec (show ({ σ.s with ran := σ.s.ran ++ [stmt] } : Conn).isServer = true from hw.server) hin hw.log _
    refine .running hf ?_ hfill ?_
    · show σ.s.ran ++ [stmt] = [stmt]
      rw [hw.ran]
      rfl
    · show Showing σ.s.log σ.c σ.agent
      rw [hw.log]
      exact hw.showing
  | running hf hran hfill hshow =>
    rw [hops] at hfill
    obtain ⟨hfill', hran', l, hlog, rfl⟩ := hfill.turn hturn
    refine .running hf (hran'.trans hran) hfill' ?_
    show Showing x'.log (σ.c.deliver (l.map Prod.fst)) σ.agent
    rw [hlog]
    exact hshow.append l

theorem Phase.step {σ σ' : System} (hs : E.cipher.Sendable stmt) (h : Phase E stmt σ) {t : Thread} (ht : σ.step E t = some σ') :
    Phase E stmt σ' := by
  cases t with
  | input => exact h.step_input hs ht
  | agent => exact h.step_agent ht
  | server => exact h.step_server hs ht

/-- In every phase nothing has been disturbed. -/
theorem Phase.undisturbed {σ : System} (hs : E.cipher.Sendable stmt) (h : Phase E stmt σ) : Undisturbed E [stmt] σ := by
  have input_ne : ∀ {op : Op} {k : List Op}, σ.input = op :: k → op ≠ .loop → σ.step E .input ≠ none := by
    intro op k hops hop
    rw [System.step, hops]
    exact fun he => turn_ne_none hop σ.c k (Option.map_eq_none_iff.mp he)
  have hwait : Waiting σ → (σ.step E .input ≠ none ∨ σ.step E .server ≠ none) → σ.server ≠ [] → Undisturbed E [stmt] σ := by
    intro hw hne hserver
    refine ⟨by rw [hw.ran]; exact List.nil_prefix, fun hstuck => ?_, fun he => absurd he hserver, by simp [hw.log], by simp [hw.shown]⟩
    rcases hne with hne | hne
    · exact absurd (hstuck .input) hne
    · exact absurd (hstuck .server) hne
  cases h with
  | composing hi hin hc =>
    refine hwait hi.toWaiting (.inl ?_) (by simp [hi.serverOps])
    generalize hops : σ.input = ops at hc
    cases hc with
    | start => exact input_ne hops (by simp)
    | plain => exact input_ne hops (by simp)
    | secret => exact input_ne hops (by simp)
    | typed => exact input_ne hops (by simp)
    | ready => exact input_ne hops (by simp)
    | sending => exact input_ne hops (by simp)
  | sent hi hin hf =>
    refine hwait hi.toWaiting (.inr ?_) (by simp [hi.serverOps])
    rw [System.step, hi.serverOps]
    dsimp only
    rw [(hs.gets.turn hi.server hi.srvLoop hi.takes hin []).1]
    exact Option.some_ne_none _
  | taken hw hin hf hserver htext =>
    refine hwait hw (.inr ?_) (by simp [hserver])
    rw [System.step, hserver]
    have hop : Op.exec ≠ .loop := by simp
    exact fun he => turn_ne_none hop σ.s [.loop] (Option.map_eq_none_iff.mp he)
  | running hf hran hfill hshow =>
    exact ⟨hran ▸ List.prefix_refl _, fun _ => hran, fun _ => hran, hfill.log, hshow.shown⟩

/-- A line without a statement: nothing is done. -/
theorem no_statement {σ : System} (hi : Idle σ) (hin : σ.s.inbox = []) (hinput : σ.input = []) :
    (∀ t, σ.step E t = none) ∧ Undisturbed E [] σ := by
  have hnone : ∀ t, σ.step E t = none := by
    intro t
    cases t with
    | input => rw [System.step, hinput]
    | agent => exact hi.agent_none
    | server =>
      rw [System.step, hi.serverOps]
      exact Option.map_eq_none_iff.mpr (turn_loop_none hi.srvLoop hin [])
  exact ⟨hnone, by simp [hi.ran], fun _ => hi.ran, fun _ => hi.ran, by simp [hi.log], by simp [hi.shown]⟩

/-- A line of one statement at most that can be sent: whatever the threads do, and in whatever order, the server runs the
statement once and as it was written, the results are what was put for them, and the console shows nothing else. -/
theorem line_undisturbed (E : Env) (c s : Fsm) (line : List UInt8) (h : Between c s) (hlen : (parseLine line).length ≤ 1)
    (hs : ∀ t ∈ parseLine line, E.cipher.Sendable t) (order : List Thread) (σ : System)
    (hrun : run (System.step E) (System.start E.cipher c s line) order = some σ) :
    Undisturbed E (parseLine line) σ := by
  have hidle : Idle (System.start E.cipher c s line) :=
    { console := h.console, loop := h.cliLoop, inbox := h.cliInbox, agent := rfl, shown := rfl, server := h.server, ran := rfl
      log := rfl, srvLoop := h.srvLoop, takes := h.takes, serverOps := rfl }
  rcases hp : parseLine line with _ | ⟨stmt, _ | ⟨stmt', rest⟩⟩
  · have hinput : (System.start E.cipher c s line).input = [] := by
      show lineOps E.cipher line = []
      rw [lineOps, hp]
      rfl
    obtain ⟨hnone, hund⟩ := no_statement (E := E) hidle h.srvInbox hinput
    cases order with
    | nil => exact Option.some.inj hrun ▸ hund
    | cons t order =>
      obtain ⟨σ', hσ', -⟩ := run_cons.mp hrun
      rw [hnone t] at hσ'
      cases hσ'
  · have hsend : E.cipher.Sendable stmt := hs stmt (hp ▸ List.mem_cons_self)
    have hinput : (System.start E.cipher c s line).input = stmtOps E.cipher stmt := by
      show lineOps E.cipher line = _
      rw [lineOps, hp, List.flatMap_singleton]
    have hstart : Phase E stmt (System.start E.cipher c s line) := by
      refine .composing hidle h.srvInbox ?_
      rw [hinput]
      exact .start _
    have hok : Always (System.step E) (fun _ _ => True) (System.start E.cipher c s line) order := fun _ _ _ _ _ _ => trivial
    have hphase : Phase E stmt σ := run_invariant (fun _ _ _ hI _ ht => hI.step hsend ht) hstart hok hrun
    exact hphase.undisturbed hsend
  · rw [hp] at hlen
    simp at hlen

end RedB.Comm
