import RedB.Comm.Line

/-!
# Lines that are safe

A line of two statements is not safe, whatever they are: the second one can come in while the server waits for the
acknowledgement of a part of the result of the first. The loop ends then, and with it the one around it, so the second
statement is lost with all that come behind it. A statement that does not fit into one message is run as far as it does.
-/

namespace RedB.Comm

open Actions

variable {C : Cipher} {E : Env} {stmt : List UInt8}

/-! ### Turns of one thread -/

/-- Turns of a thread, one after the other, and what it sends by them. -/
inductive Turns (E : Env) : Conn → List Op → List Msg → Conn → List Op → Prop where
  | refl (x : Conn) (k : List Op) : Turns E x k [] x k
  | turn {x x' x'' : Conn} {op : Op} {k k' k'' : List Op} {out msgs : List Msg} :
      op.turn E x k = some (x', k', out) → Turns E x' k' msgs x'' k'' → Turns E x (op :: k) (out ++ msgs) x'' k''

theorem Turns.trans {x x' x'' : Conn} {k k' k'' : List Op} {out msgs : List Msg} (h : Turns E x k out x' k')
    (h' : Turns E x' k' msgs x'' k'') : Turns E x k (out ++ msgs) x'' k'' := by
  induction h with
  | refl => exact h'
  | turn ht _ ih =>
    rw [List.append_assoc]
    exact .turn ht (ih h')

/-- A turn by which nothing is sent. -/
theorem Turns.quiet {x x' x'' : Conn} {op : Op} {k k' k'' : List Op} {msgs : List Msg} (ht : op.turn E x k = some (x', k', []))
    (h : Turns E x' k' msgs x'' k'') : Turns E x (op :: k) msgs x'' k'' := .turn ht h

theorem Turns.input {x x' : Conn} {k k' : List Op} {msgs : List Msg} (h : Turns E x k msgs x' k') {σ : System} (hx : σ.c = x)
    (hk : σ.input = k) :
    ∃ order, run (System.step E) σ order = some { σ with c := x', input := k', s := σ.s.deliver msgs } := by
  induction h generalizing σ with
  | refl =>
    subst hx hk
    exact ⟨[], by rw [deliver_nil]; rfl⟩
  | @turn x x' x'' op k k' k'' out msgs ht _ ih =>
    obtain ⟨order, hrun⟩ := @ih { σ with c := x', input := k', s := σ.s.deliver out } rfl rfl
    refine ⟨.input :: order, run_cons.mpr ⟨_, ?_, hrun.trans ?_⟩⟩
    · rw [System.step, hk, hx]
      dsimp only
      rw [ht]
      rfl
    · simp only [Conn.deliver, List.append_assoc]

theorem Turns.server {x x' : Conn} {k k' : List Op} {msgs : List Msg} (h : Turns E x k msgs x' k') {σ : System} (hx : σ.s = x)
    (hk : σ.server = k) :
    ∃ order, run (System.step E) σ order = some { σ with s := x', server := k', c := σ.c.deliver msgs } := by
  induction h generalizing σ with
  | refl =>
    subst hx hk
    exact ⟨[], by rw [deliver_nil]; rfl⟩
  | @turn x x' x'' op k k' k'' out msgs ht _ ih =>
    obtain ⟨order, hrun⟩ := @ih { σ with s := x', server := k', c := σ.c.deliver out } rfl rfl
    refine ⟨.server :: order, run_cons.mpr ⟨_, ?_, hrun.trans ?_⟩⟩
    · rw [System.step, hk, hx]
      dsimp only
      rw [ht]
      rfl
    · simp only [Conn.deliver, List.append_assoc]

/-! ### The console sends a statement -/

theorem Aside.refl (x : Conn) : Aside x x := ⟨rfl, rfl, rfl, rfl⟩

theorem Aside.trans {x x' x'' : Conn} (h : Aside x x') (h' : Aside x' x'') : Aside x x'' :=
  ⟨h'.isServer.trans h.isServer, h'.loop.trans h.loop, h'.inbox.trans h.inbox, h'.shown.trans h.shown⟩

/-- The bytes that fit are put. -/
theorem turns_put {x : Conn} {buf : List UInt8} (h : x.size + buf.length ≤ BUFFER_SZ) (rest : List UInt8) (k : List Op) :
    ∃ x', Turns E x (.put (buf ++ rest) :: k) [] x' (.put rest :: k) ∧ Aside x x' ∧ x'.contents = x.contents ++ buf := by
  induction buf generalizing x with
  | nil => exact ⟨x, .refl .., .refl x, (List.append_nil _).symm⟩
  | cons b buf ih =>
    rw [List.length_cons] at h
    have hsize : (x.store b).size + buf.length ≤ BUFFER_SZ := by
      show x.size + 1 + buf.length ≤ BUFFER_SZ
      omega
    obtain ⟨x', hturns, haside, hcont⟩ := ih hsize
    have hturn : Op.turn E x k (.put (b :: (buf ++ rest))) = some (x.store b, .put (buf ++ rest) :: k, []) := by
      rw [Op.turn, if_neg (by omega)]
    have hstore : Aside x (x.store b) := ⟨rfl, rfl, rfl, rfl⟩
    refine ⟨x', .quiet hturn hturns, hstore.trans haside, ?_⟩
    rw [hcont, show (x.store b).contents = x.contents ++ [b] from Fsm.contents_putByte b, List.append_assoc]
    rfl

/-- The message is sent, as `flush` does it. -/
theorem turns_send {x : Conn} (hx : x.isServer = false) (k : List Op) :
    ∃ x', Turns E x (.send :: .reset :: .callback :: k) [x.contents] x' k ∧ Aside x x' := by
  have hcallback : Op.turn E (x.sends.anew Fsm.reset) k .callback = some (x.sends.anew Fsm.reset, k, []) := by
    have hserver : (x.sends.anew Fsm.reset).isServer = false := hx
    rw [Op.turn, if_neg (by simp [hserver])]
  have hsend : Op.turn E x (.reset :: .callback :: k) .send = some (x.sends, .reset :: .callback :: k, [x.contents]) := rfl
  have hreset : Op.turn E x.sends (.callback :: k) .reset = some (x.sends.anew Fsm.reset, .callback :: k, []) := rfl
  exact ⟨x.sends.anew Fsm.reset, .turn hsend (.quiet hreset (.quiet hcallback (.refl ..))), rfl, rfl, List.append_nil _, rfl⟩

theorem turns_flush {x : Conn} (hx : x.isServer = false) (k : List Op) :
    ∃ x', Turns E x (.flush :: k) [x.contents] x' k ∧ Aside x x' := by
  obtain ⟨x', hturns, haside⟩ := turns_send hx k
  exact ⟨x', .quiet rfl hturns, haside⟩

/-- The statement is to be encrypted and cannot be. -/
def Cipher.Fails (C : Cipher) (stmt : List UInt8) : Prop := C.secret stmt ∧ C.encrypt (BUFFER_SZ - OPCODE_SZ) stmt = none

theorem Cipher.Sendable.not_fails (h : C.Sendable stmt) : ¬C.Fails stmt := by
  rintro ⟨hs, hcode⟩
  rw [Cipher.Sendable, if_pos hs] at h
  obtain ⟨code, stmt', hcode', -⟩ := h
  rw [hcode] at hcode'
  cases hcode'

/-- A statement in clear. If it does not fit, the server gets as much of it as does. -/
theorem turns_plain {x : Conn} (hx : x.isServer = false) (hs : ¬E.cipher.secret stmt) (k : List Op) :
    ∃ m t x' k', Turns E x (stmtOps E.cipher stmt ++ k) [m] x' k' ∧ Aside x x' ∧ E.cipher.Gets m t ∧
      (E.cipher.Sendable stmt → k' = k) ∧ (t = stmt ↔ E.cipher.Sendable stmt) := by
  have hops : stmtOps E.cipher stmt ++ k = .resetType OP_STMT_SYN TYPE_TXT :: .put stmt :: .flush :: k := by
    rw [stmtOps, if_neg hs]
    rfl
  have hreset : Op.turn E x (.put stmt :: .flush :: k) (.resetType OP_STMT_SYN TYPE_TXT) =
      some (x.anew fun s => s.resetType OP_STMT_SYN TYPE_TXT, .put stmt :: .flush :: k, []) := rfl
  have hfirst : Aside x (x.anew fun s => s.resetType OP_STMT_SYN TYPE_TXT) := ⟨rfl, rfl, rfl, rfl⟩
  have hcont : (x.anew fun s => s.resetType OP_STMT_SYN TYPE_TXT).contents = [6, 0] := rfl
  have hsize : (x.anew fun s => s.resetType OP_STMT_SYN TYPE_TXT).size = OPCODE_SZ := rfl
  generalize hy : (x.anew fun s => s.resetType OP_STMT_SYN TYPE_TXT) = y at hreset hfirst hcont hsize
  have hsend : E.cipher.Sendable stmt ↔ OPCODE_SZ + stmt.length ≤ BUFFER_SZ := by rw [Cipher.Sendable, if_neg hs]
  rw [hops]
  by_cases hfit : OPCODE_SZ + stmt.length ≤ BUFFER_SZ
  · have hle : y.size + stmt.length ≤ BUFFER_SZ := by rwa [hsize]
    obtain ⟨y', hput, haside, hcont'⟩ := turns_put (E := E) hle [] (.flush :: k)
    rw [List.append_nil] at hput
    obtain ⟨x', hflush, haside'⟩ := turns_flush (E := E) ((hfirst.trans haside).isServer.trans hx) k
    have hmsg : y'.contents = 6 :: 0 :: stmt := by rw [hcont', hcont]; rfl
    rw [hmsg] at hflush
    refine ⟨6 :: 0 :: stmt, stmt, x', k, ?_, (hfirst.trans haside).trans haside', E.cipher.gets_plain hfit, fun _ => rfl, ?_⟩
    · have hdone : Turns E y' (.put [] :: .flush :: k) [6 :: 0 :: stmt] x' k := .quiet rfl hflush
      exact .quiet hreset (hput.trans hdone)
    · exact ⟨fun _ => hsend.mpr hfit, fun _ => rfl⟩
  · have hlen : (stmt.take (BUFFER_SZ - OPCODE_SZ)).length = BUFFER_SZ - OPCODE_SZ := by
      rw [List.length_take]
      omega
    have hroom : OPCODE_SZ + (stmt.take (BUFFER_SZ - OPCODE_SZ)).length = BUFFER_SZ := by
      rw [hlen]
      rfl
    obtain ⟨b, rest, hrest⟩ : ∃ b rest, stmt.drop (BUFFER_SZ - OPCODE_SZ) = b :: rest := by
      refine List.exists_cons_of_ne_nil fun he => hfit ?_
      rw [List.drop_eq_nil_iff] at he
      omega
    have hle : y.size + (stmt.take (BUFFER_SZ - OPCODE_SZ)).length ≤ BUFFER_SZ := by
      rw [hsize]
      exact hroom.le
    obtain ⟨y', hput, haside, hcont'⟩ := turns_put (E := E) hle (stmt.drop (BUFFER_SZ - OPCODE_SZ)) (.flush :: k)
    rw [List.take_append_drop, hrest] at hput
    have hmsg : y'.contents = 6 :: 0 :: stmt.take (BUFFER_SZ - OPCODE_SZ) := by rw [hcont', hcont]; rfl
    have hfull : y'.size = BUFFER_SZ := by
      rw [size_of_contents hmsg, List.length_cons, List.length_cons, hlen]
      rfl
    have hturn : Op.turn E y' (.flush :: k) (.put (b :: rest)) =
        some (y', .send :: .reset :: .callback :: .store b :: .put rest :: .flush :: k, []) := by
      rw [Op.turn, if_pos hfull]
    obtain ⟨x', hflush, haside'⟩ := turns_send (E := E) ((hfirst.trans haside).isServer.trans hx) (.store b :: .put rest :: .flush :: k)
    rw [hmsg] at hflush
    refine ⟨6 :: 0 :: stmt.take (BUFFER_SZ - OPCODE_SZ), stmt.take (BUFFER_SZ - OPCODE_SZ), x', _,
      .quiet hreset (hput.trans (.quiet hturn hflush)), (hfirst.trans haside).trans haside', E.cipher.gets_plain hroom.le,
      fun hsd => absurd (hsend.mp hsd) hfit, ?_⟩
    refine iff_of_false (fun he => hfit ?_) fun hsd => hfit (hsend.mp hsd)
    have hl := congrArg List.length he
    rw [hlen] at hl
    omega

/-- A statement that is encrypted. If it cannot be, nothing of the line is sent any more. -/
theorem turns_secret {x : Conn} (hx : x.isServer = false) (hs : E.cipher.secret stmt) (k : List Op) :
    (E.cipher.Fails stmt ∧ ∃ x', Turns E x (stmtOps E.cipher stmt ++ k) [] x' [] ∧ Aside x x') ∨
    ¬E.cipher.Fails stmt ∧ ∃ m t x' k', Turns E x (stmtOps E.cipher stmt ++ k) [m] x' k' ∧ Aside x x' ∧ E.cipher.Gets m t ∧
      (E.cipher.Sendable stmt → k' = k) ∧ (t = stmt ↔ E.cipher.Sendable stmt) := by
  have hops : stmtOps E.cipher stmt ++ k = .resetType OP_STMT_SYN TYPE_TXT :: .setType TYPE_ENC :: .encrypt stmt :: .flush :: k := by
    rw [stmtOps, if_pos hs]
    rfl
  have hreset : Op.turn E x (.setType TYPE_ENC :: .encrypt stmt :: .flush :: k) (.resetType OP_STMT_SYN TYPE_TXT) =
      some (x.anew fun s => s.resetType OP_STMT_SYN TYPE_TXT, .setType TYPE_ENC :: .encrypt stmt :: .flush :: k, []) := rfl
  have hcont : (x.anew fun s => s.resetType OP_STMT_SYN TYPE_TXT).contents = [6, 0] := rfl
  have hfirst : Aside x (x.anew fun s => s.resetType OP_STMT_SYN TYPE_TXT) := ⟨rfl, rfl, rfl, rfl⟩
  generalize (x.anew fun s => s.resetType OP_STMT_SYN TYPE_TXT) = y at hreset hcont hfirst
  have htype : Op.turn E y (.encrypt stmt :: .flush :: k) (.setType TYPE_ENC) =
      some (y.onFsm fun s => s.setType TYPE_ENC, .encrypt stmt :: .flush :: k, []) := rfl
  have hcont' : (y.onFsm fun s => s.setType TYPE_ENC).contents = [6, 1] := contents_setType hcont _
  have hsecond : Aside y (y.onFsm fun s => s.setType TYPE_ENC) := ⟨rfl, rfl, rfl, rfl⟩
  generalize (y.onFsm fun s => s.setType TYPE_ENC) = z at htype hcont' hsecond
  have hsize : z.size = OPCODE_SZ := size_of_contents hcont'
  have hroom : z.remaining = BUFFER_SZ - OPCODE_SZ := by rw [Fsm.remaining, hsize]
  rw [hops]
  cases hcode : E.cipher.encrypt (BUFFER_SZ - OPCODE_SZ) stmt with
  | none =>
    have henc : Op.turn E z (.flush :: k) (.encrypt stmt) = some (z, [], []) := by
      rw [Op.turn, hroom, hcode]
    exact .inl ⟨⟨hs, hcode⟩, z, .quiet hreset (.quiet htype (.quiet henc (.refl ..))), hfirst.trans hsecond⟩
  | some code =>
    have henc : Op.turn E z (.flush :: k) (.encrypt stmt) = some (z.fill code, .flush :: k, []) := by
      rw [Op.turn, hroom, hcode]
    have hmsg : (z.fill code).contents = 6 :: 1 :: code := by
      rw [contents_fill hsize, hcont']
      rfl
    have hthird : Aside z (z.fill code) := ⟨rfl, rfl, rfl, rfl⟩
    obtain ⟨x', hflush, haside⟩ := turns_flush (E := E) ((hfirst.trans (hsecond.trans hthird)).isServer.trans hx) k
    rw [hmsg] at hflush
    obtain ⟨stmt', hdec⟩ := E.cipher.opens hcode
    refine .inr ⟨fun hf => ?_, 6 :: 1 :: code, firstStmt stmt', x', k, .quiet hreset (.quiet htype (.quiet henc hflush)),
      (hfirst.trans (hsecond.trans hthird)).trans haside, E.cipher.gets_secret hcode hdec, fun _ => rfl, ?_⟩
    · rw [hf.2] at hcode
      cases hcode
    rw [Cipher.Sendable, if_pos hs]
    constructor
    · exact fun he => ⟨code, stmt', hcode, hdec, he⟩
    · rintro ⟨code', stmt'', hcode', hdec', he⟩
      obtain rfl := Option.some.inj (hcode.symm.trans hcode')
      obtain rfl := Except.ok.inj (hdec.symm.trans hdec')
      exact he

/-- The first message of a statement. -/
theorem turns_stmt {x : Conn} (hx : x.isServer = false) (stmt : List UInt8) (k : List Op) :
    (E.cipher.Fails stmt ∧ ∃ x', Turns E x (stmtOps E.cipher stmt ++ k) [] x' [] ∧ Aside x x') ∨
    ¬E.cipher.Fails stmt ∧ ∃ m t x' k', Turns E x (stmtOps E.cipher stmt ++ k) [m] x' k' ∧ Aside x x' ∧ E.cipher.Gets m t ∧
      (E.cipher.Sendable stmt → k' = k) ∧ (t = stmt ↔ E.cipher.Sendable stmt) := by
  by_cases hs : E.cipher.secret stmt
  · exact turns_secret hx hs k
  · exact .inr ⟨fun hf => hs hf.1, turns_plain hx hs k⟩

/-! ### The server runs a statement -/

/-- Nothing is put out. -/
def silent : Program := ⟨[], by simp, by simp⟩

/-- A part of the result, of no bytes. -/
def oneChunk : Program := ⟨[.resetOp OP_RSLT_SYN, .flush], by simp [Op.IsOutput], by simp [Op.IsReset]⟩

theorem turns_server {m : Msg} {ms : List Msg} (h : E.cipher.Gets m stmt) {x : Conn} (hserver : x.isServer = true)
    (hloop : x.loop = true) (htakes : dispatch srvFsm x.opsent OP_STMT_SYN = .rcvd) (hin : x.inbox = m :: ms) :
    ∃ y, Turns E x [.loop] [] y ((E.program x.ran.length stmt).ops ++ [.loop]) ∧ y.ran = x.ran ++ [stmt] ∧ y.isServer = true ∧
      y.loop = true ∧ y.inbox = ms := by
  obtain ⟨hturn, htext, hs, hinbox⟩ := h.turn hserver hloop htakes hin []
  have hl : (x.anew Fsm.recv).loop = true := by
    show x.toFsm.recv.loop = true
    rw [Fsm.recv, hin]
    exact hloop
  have hexec : Op.turn E (x.anew Fsm.recv) [.loop] .exec =
      some ({ x.anew Fsm.recv with ran := x.ran ++ [stmt] }, (E.program x.ran.length stmt).ops ++ [.loop], []) := by
    rw [Op.turn, htext]
    rfl
  exact ⟨{ x.anew Fsm.recv with ran := x.ran ++ [stmt] }, .quiet hturn (.quiet hexec (.refl ..)), rfl, hs, hl, hinbox⟩

/-- A statement that comes in while an acknowledgement is waited for ends both loops. -/
theorem turns_oneChunk {b : UInt8} {m : Msg} {ms : List Msg} {x : Conn} (hserver : x.isServer = true)
    (hin : x.inbox = (6 :: b :: m) :: ms) (hlen : (6 :: b :: m).length ≤ BUFFER_SZ) :
    ∃ msgs y, Turns E x (oneChunk.ops ++ [.loop]) msgs y [] ∧ y.ran = x.ran := by
  let x1 := x.anew fun s => s.resetOp OP_RSLT_SYN
  let x2 := x1.sends.anew Fsm.reset
  let x3 := x2.onFsm Fsm.cont
  let x4 := x3.anew Fsm.recv
  have hsent : x2.opsent = OP_RSLT_SYN := Fsm.getOpcode_resetOp (s := x.toFsm) (by decide)
  have hin3 : x3.inbox = (6 :: b :: m) :: ms := (List.append_nil _).trans hin
  have hcont : x4.contents = 6 :: b :: m := (contents_recv hin3).trans (List.take_of_length_le hlen)
  have hserver4 : x4.isServer = true := by
    show x3.toFsm.recv.isServer = true
    rw [Fsm.recv, hin3]
    exact hserver
  have hsent4 : x4.opsent = OP_RSLT_SYN := (show x4.opsent = x3.opsent from Fsm.opsent_recv).trans hsent
  have hop : x4.getOpcode = OP_STMT_SYN := getOpcode_of_contents hcont
  have hhandle : x4.handle = [.term] := by
    rw [Conn.handle, hop, Conn.table, if_pos hserver4, hsent4]
    rfl
  have hcallback : Op.turn E x2 [.loop] .callback = some (x2, [.cont, .loop, .loop], []) := by
    rw [Op.turn, if_pos ⟨hserver, hsent⟩]
  have hloop : Op.turn E x3 [.loop] .loop = some (x4, [.term, .loop, .loop], []) := by
    have hl : x3.loop = true := rfl
    rw [Op.turn, if_pos hl, if_neg (by rw [hin3]; exact List.cons_ne_nil _ _)]
    dsimp only
    rw [if_neg (by rw [size_of_contents hcont]; exact Nat.succ_ne_zero _), hhandle]
    rfl
  have hleave : ∀ k, Op.turn E (x4.onFsm Fsm.term) k .loop = some (x4.onFsm Fsm.term, k, []) := by
    intro k
    rw [Op.turn, if_neg (by simp [Conn.onFsm, Fsm.term])]
  have hsend : Op.turn E x1 [.reset, .callback, .loop] .send = some (x1.sends, [.reset, .callback, .loop], [x1.contents]) := rfl
  refine ⟨[x1.contents], x4.onFsm Fsm.term, ?_, rfl⟩
  have hrest : Turns E x2 [.callback, .loop] [] (x4.onFsm Fsm.term) [] :=
    .quiet hcallback (.quiet rfl (.quiet hloop (.quiet rfl (.quiet (hleave _) (.quiet (hleave _) (.refl ..))))))
  exact .quiet rfl (.quiet rfl (.turn hsend (.quiet rfl hrest)))

/-! ### Lines -/

theorem start_input (C : Cipher) (c s : Fsm) {line stmt : List UInt8} {rest : List (List UInt8)} (hp : parseLine line = stmt :: rest) :
    (System.start C c s line).input = stmtOps C stmt ++ rest.flatMap (stmtOps C) := by
  show lineOps C line = _
  rw [lineOps, hp, List.flatMap_cons]

/-- If nothing is sent any more and the server is in its loop, nothing can be done. -/
theorem stuck {σ : System} (hinput : σ.input = []) (hagent : σ.agent = [.loop]) (hserver : σ.server = [.loop]) (hc : σ.c.loop = true)
    (hcin : σ.c.inbox = []) (hs : σ.s.loop = true) (hsin : σ.s.inbox = []) (t : Thread) : σ.step E t = none := by
  cases t with
  | input => rw [System.step, hinput]
  | agent =>
    rw [System.step, hagent]
    dsimp only
    rw [turn_loop_none hc hcin]
    rfl
  | server =>
    rw [System.step, hserver]
    dsimp only
    rw [turn_loop_none hs hsin]
    rfl

/-- A run, and then turns of the server. -/
theorem run_server {σ σ' : System} {order : List Thread} (h : run (System.step E) σ order = some σ') {y : Conn} {k : List Op}
    {msgs : List Msg} (ht : Turns E σ'.s σ'.server msgs y k) :
    ∃ order', run (System.step E) σ order' = some { σ' with s := y, server := k, c := σ'.c.deliver msgs } := by
  obtain ⟨order', h'⟩ := ht.server rfl rfl
  exact ⟨order ++ order', run_append.mpr ⟨σ', h, h'⟩⟩

/-- The first statement of a safe line can be sent. -/
theorem first_sendable {c s : Fsm} {line : List UInt8} {rest : List (List UInt8)} (h : Between c s) (hp : parseLine line = stmt :: rest)
    (hall : ∀ order σ, run (System.step ⟨C, fun _ _ => silent⟩) (System.start C c s line) order = some σ →
      Undisturbed ⟨C, fun _ _ => silent⟩ (parseLine line) σ) : C.Sendable stmt := by
  rcases turns_stmt (E := ⟨C, fun _ _ => silent⟩) (x := (System.start C c s line).c) h.console stmt (rest.flatMap (stmtOps C)) with
    ⟨-, x', hturns, haside⟩ | ⟨-, m, t, x', k', hturns, haside, hgets, -, hiff⟩
  · obtain ⟨order, hrun⟩ := hturns.input rfl (start_input C c s hp)
    have hran := (hall order _ hrun).complete (stuck rfl rfl rfl (haside.loop.trans h.cliLoop) (haside.inbox.trans h.cliInbox)
      h.srvLoop ((List.append_nil _).trans h.srvInbox))
    rw [hp] at hran
    cases hran
  · obtain ⟨order, hrun⟩ := hturns.input rfl (start_input C c s hp)
    have hin : ((System.start C c s line).s.deliver [m]).inbox = [m] := by
      show s.inbox ++ [m] = [m]
      rw [h.srvInbox]
      rfl
    obtain ⟨y, hserver, hran, -⟩ := turns_server hgets (x := (System.start C c s line).s.deliver [m]) h.server h.srvLoop h.takes hin
    obtain ⟨order', hrun'⟩ := run_server hrun hserver
    have hpre := (hall order' _ hrun').order
    have hy : y.ran = [t] := hran
    rw [hp] at hpre
    have hpre : [t] <+: stmt :: rest := hy ▸ hpre
    exact hiff.mp (List.cons_prefix_cons.mp hpre).1

/-- The first statement is sent, and of the second what goes into one message, if it can be encrypted. -/
theorem two_statements {c s : Fsm} {line stmt' : List UInt8} {rest : List (List UInt8)} (h : Between c s)
    (hp : parseLine line = stmt :: stmt' :: rest) (hs : C.Sendable stmt) (program : ℕ → List UInt8 → Program) :
    (C.Fails stmt' ∧ ∃ order m x, run (System.step ⟨C, program⟩) (System.start C c s line) order =
        some { System.start C c s line with c := x, input := [], s := (System.start C c s line).s.deliver [m] } ∧
      Aside (System.start C c s line).c x ∧ C.Gets m stmt) ∨
    ¬C.Fails stmt' ∧ ∃ order m m' t x k, run (System.step ⟨C, program⟩) (System.start C c s line) order =
        some { System.start C c s line with c := x, input := k, s := (System.start C c s line).s.deliver [m, m'] } ∧
      C.Gets m stmt ∧ C.Gets m' t := by
  rcases turns_stmt (E := ⟨C, program⟩) (x := (System.start C c s line).c) h.console stmt ((stmt' :: rest).flatMap (stmtOps C)) with
    ⟨hf, -⟩ | ⟨-, m, t, x, k, hturns, haside, hgets, hk, hiff⟩
  · exact absurd hf hs.not_fails
  · obtain rfl := hk hs
    obtain rfl := hiff.mpr hs
    rw [List.flatMap_cons] at hturns
    rcases turns_stmt (E := ⟨C, program⟩) (haside.isServer.trans h.console) stmt' (rest.flatMap (stmtOps C)) with
      ⟨hf, x', hturns', haside'⟩ | ⟨hf, m', t', x', k', hturns', -, hgets', -⟩
    · obtain ⟨order, hrun⟩ := (hturns.trans hturns').input rfl (start_input C c s hp)
      exact .inl ⟨hf, order, m, x', hrun, haside.trans haside', hgets⟩
    · obtain ⟨order, hrun⟩ := (hturns.trans hturns').input rfl (start_input C c s hp)
      exact .inr ⟨hf, order, m, m', t', x', k', hrun, hgets, hgets'⟩

/-- A line is safe, whatever its statements put out, if and only if it has one statement at most and that can be sent. -/
theorem line_undisturbed_iff (C : Cipher) (c s : Fsm) (line : List UInt8) (h : Between c s) :
    (∀ (program : ℕ → List UInt8 → Program) (order : List Thread) (σ : System),
        run (System.step ⟨C, program⟩) (System.start C c s line) order = some σ → Undisturbed ⟨C, program⟩ (parseLine line) σ) ↔
      (parseLine line).length ≤ 1 ∧ ∀ t ∈ parseLine line, C.Sendable t := by
  constructor
  · intro hall
    rcases hp : parseLine line with _ | ⟨stmt, _ | ⟨stmt', rest⟩⟩
    · simp
    · have hsend := first_sendable h hp (hall fun _ _ => silent)
      simpa using hsend
    · exfalso
      have hsend := first_sendable h hp (hall fun _ _ => silent)
      have hin : ∀ msgs, ((System.start C c s line).s.deliver msgs).inbox = msgs := fun msgs => by
        show s.inbox ++ msgs = msgs
        rw [h.srvInbox, List.nil_append]
      by_cases hf : C.Fails stmt'
      · -- The line ends at its second statement.
        rcases two_statements h hp hsend fun _ _ => silent with ⟨-, order, m, x, hrun, haside, hgets⟩ | ⟨hn, -⟩
        · obtain ⟨y, hserver, hran, -, hloop, hinbox⟩ := turns_server (E := ⟨C, fun _ _ => silent⟩) hgets
            (x := (System.start C c s line).s.deliver [m]) h.server h.srvLoop h.takes (hin [m])
          obtain ⟨order', hrun'⟩ := run_server hrun hserver
          have hcomplete := (hall _ order' _ hrun').complete (stuck rfl rfl rfl (haside.loop.trans h.cliLoop)
            ((List.append_nil _).trans (haside.inbox.trans h.cliInbox)) hloop hinbox)
          rw [hp] at hcomplete
          have hlist : [stmt] = stmt :: stmt' :: rest := hran.symm.trans hcomplete
          simp at hlist
        · exact hn hf
      · -- The second statement comes in while the server waits for an acknowledgement.
        rcases two_statements h hp hsend fun _ _ => oneChunk with ⟨hn, -⟩ | ⟨-, order, m, m', t, x, k, hrun, hgets, hgets'⟩
        · exact hf hn
        · obtain ⟨y, hserver, hran, hsrv, -, hinbox⟩ := turns_server (E := ⟨C, fun _ _ => oneChunk⟩) hgets
            (x := (System.start C c s line).s.deliver [m, m']) h.server h.srvLoop h.takes (hin [m, m'])
          obtain ⟨b, text, rfl⟩ := hgets'.opcode
          obtain ⟨msgs, z, hchunk, hzran⟩ := turns_oneChunk (E := ⟨C, fun _ _ => oneChunk⟩) hsrv hinbox hgets'.length_le
          obtain ⟨order', hrun'⟩ := run_server hrun (hserver.trans hchunk)
          have hserves := (hall _ order' _ hrun').serves rfl
          rw [hp] at hserves
          have hlist : [stmt] = stmt :: stmt' :: rest := (hzran.trans hran).symm.trans hserves
          simp at hlist
  · rintro ⟨hlen, hs⟩ program order σ hrun
    exact line_undisturbed ⟨C, program⟩ c s line h hlen hs order σ hrun

/-- Nothing is encrypted. -/
def clear : Cipher where
  secret _ := false
  encrypt _ _ := none
  decrypt _ := .error .exception
  fits := by simp
  nonempty := by simp
  opens := by simp

/-- `a;b;` -/
theorem two_disturbed : ¬∀ (program : ℕ → List UInt8 → Program) (order : List Thread) (σ : System),
    run (System.step ⟨clear, program⟩) (System.start clear (Fsm.new false (fun _ => 0) [])
        { Fsm.new true (fun _ => 0) [] with opsent := OP_AUTH_ACK } [97, 59, 98, 59]) order = some σ →
      Undisturbed ⟨clear, program⟩ (parseLine [97, 59, 98, 59]) σ := fun hall =>
  absurd ((line_undisturbed_iff clear (Fsm.new false (fun _ => 0) []) { Fsm.new true (fun _ => 0) [] with opsent := OP_AUTH_ACK }
    [97, 59, 98, 59] ⟨rfl, rfl, rfl, rfl, rfl, rfl, by decide⟩).mp hall).1 (by decide)

end RedB.Comm
