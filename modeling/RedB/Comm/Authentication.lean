import RedB.Comm.Stream

/-!
# Statements and authentication

What a message is for depends on the opcode that has been sent last, so that has to tell whether
the client has been accepted (`Inv`). Before it is, nothing is sent but keys and refusals, and a
loop in a statement handles nothing but the end of its session and acknowledgements
(`nested_silent`).

A statement is run only behind an accepted authentication. After one that is rejected or that
cannot be decrypted nothing is run any more, unless the decryption throws an exception that is
not a `std::runtime_error`: that is written to the log, and nothing is sent
(`statements_authenticated`).
-/

namespace RedB.Comm

open Runs Fsm

variable {W : Type} {peer : Msg → List Msg} {B : Backend W}

/-! ### Sessions -/

/-- Each statement has an accepted authentication before it. -/
def Guarded (trace : List Event) : Prop := ∀ pre post, trace = pre ++ .statement :: post → .accepted ∈ pre

/-- An authentication that is not accepted, because of its answer or because it failed. -/
def Event.IsRefusal : Event → Prop
  | .rejected => True
  | .failed _ => True
  | _ => False

/-- A refusal that the client is told of. -/
def Event.IsTold : Event → Prop
  | .rejected => True
  | .failed (.runtime _) => True
  | _ => False

/-- No statement is run after such an event. -/
def NoneAfter (P : Event → Prop) (trace : List Event) : Prop := ∀ pre e post, trace = pre ++ e :: post → P e → .statement ∉ post

/-- What the opcode that has been sent last tells of the session. -/
structure Inv (s : Session W) : Prop where
  guarded : Guarded s.trace
  locked : NoneAfter Event.IsTold s.trace
  fresh : .accepted ∉ s.trace → s.opsent = OP_NULL ∨ s.opsent = OP_TERM_ACK ∨ s.opsent = OP_CONN_ACK ∨ s.opsent = OP_AUTH_ERR
  refused : (∃ e ∈ s.trace, e.IsTold) → s.opsent = OP_TERM_ACK ∨ s.opsent = OP_AUTH_ERR

/-- An event in a trace that has got one more is that one or one of the others. -/
theorem append_singleton_split {trace pre post : List Event} {e x : Event} (h : trace ++ [e] = pre ++ x :: post) :
    (pre = trace ∧ x = e ∧ post = []) ∨ ∃ post', post = post' ++ [e] ∧ trace = pre ++ x :: post' := by
  rcases List.eq_nil_or_concat post with rfl | ⟨post', y, rfl⟩
  · obtain ⟨rfl, hx⟩ := List.append_inj' h rfl
    exact Or.inl ⟨rfl, (List.singleton_inj.mp hx).symm, rfl⟩
  · rw [List.concat_eq_append, ← List.cons_append, ← List.append_assoc] at h
    obtain ⟨rfl, hy⟩ := List.append_inj' h rfl
    exact Or.inr ⟨post', by rw [List.concat_eq_append, List.singleton_inj.mp hy], rfl⟩

theorem guarded_append {trace : List Event} {e : Event} (h : Guarded trace) (he : e = .statement → .accepted ∈ trace) :
    Guarded (trace ++ [e]) := by
  intro pre post heq
  rcases append_singleton_split heq with ⟨rfl, hx, -⟩ | ⟨post', -, rfl⟩
  · exact he hx.symm
  · exact h pre post' rfl

theorem noneAfter_append {P : Event → Prop} {trace : List Event} {e : Event} (h : NoneAfter P trace)
    (he : e = .statement → ∀ x ∈ trace, ¬P x) : NoneAfter P (trace ++ [e]) := by
  intro pre x post heq hx
  rcases append_singleton_split heq with ⟨-, -, rfl⟩ | ⟨post', rfl, rfl⟩
  · exact List.not_mem_nil
  · rw [List.mem_append, List.mem_singleton]
    rintro (hpost | hlast)
    · exact h pre x post' rfl hx hpost
    · exact he hlast.symm x (List.mem_append_right _ List.mem_cons_self) hx

/-! ### The table -/

/-- The messages that are handled. -/
theorem dispatch_rcvd {opsent oprcvd : ℕ} (h : dispatch srvFsm opsent oprcvd = .rcvd) :
    oprcvd = OP_TERM_SYN ∨ (oprcvd = OP_TERM_ACK ∧ opsent = OP_TERM_SYN) ∨ (oprcvd = OP_RSLT_ACK ∧ opsent = OP_RSLT_SYN) ∨
      (oprcvd = OP_CONN_SYN ∧ opsent = OP_NULL) ∨ (oprcvd = OP_AUTH_SYN ∧ opsent = OP_CONN_ACK) ∨
      (oprcvd = OP_STMT_SYN ∧ (opsent = OP_RSLT_FIN ∨ opsent = OP_AUTH_ACK ∨ opsent = OP_STMT_ERR)) := by
  have hrcvd : oprcvd < 7 := by
    by_contra hge
    rw [dispatch, if_pos (by show 6 < oprcvd; omega)] at h
    cases h
  have hsent : opsent < 10 := by
    by_contra hge
    rw [dispatch, if_neg (by show ¬6 < oprcvd; omega), @List.getD_eq_getElem?_getD _ srvFsm,
      List.getElem?_eq_none (by show 10 ≤ opsent; omega)] at h
    cases h
  have hall : ∀ r : Fin 7, ∀ o : Fin 10, dispatch srvFsm o r = .rcvd →
      (r.val, o.val) ∈ [(2, 1), (3, 3), (4, 0), (5, 5), (6, 4), (6, 7), (6, 9)] ∨ r.val = 1 := by decide
  have h' := hall ⟨oprcvd, hrcvd⟩ ⟨opsent, hsent⟩ h
  simp only [List.mem_cons, Prod.mk.injEq, List.not_mem_nil, or_false] at h'
  rcases h' with (⟨hr, ho⟩ | ⟨hr, ho⟩ | ⟨hr, ho⟩ | ⟨hr, ho⟩ | ⟨hr, ho⟩ | ⟨hr, ho⟩ | ⟨hr, ho⟩) | hr
  · exact Or.inr (Or.inl ⟨hr, ho⟩)
  · exact Or.inr (Or.inr (Or.inl ⟨hr, ho⟩))
  · exact Or.inr (Or.inr (Or.inr (Or.inl ⟨hr, ho⟩)))
  · exact Or.inr (Or.inr (Or.inr (Or.inr (Or.inl ⟨hr, ho⟩))))
  · exact Or.inr (Or.inr (Or.inr (Or.inr (Or.inr ⟨hr, Or.inl ho⟩))))
  · exact Or.inr (Or.inr (Or.inr (Or.inr (Or.inr ⟨hr, Or.inr (Or.inl ho)⟩))))
  · exact Or.inr (Or.inr (Or.inr (Or.inr (Or.inr ⟨hr, Or.inr (Or.inr ho)⟩))))
  · exact Or.inl hr

/-! ### Parts that note nothing -/

/-- A loop that is run in a statement, where a message of a result has been sent. -/
def Silent (nested : M W Unit) : Prop := ∀ s : Session W, s.opsent = OP_RSLT_SYN → (final (nested s)).trace = s.trace

section Silent

variable {nested : M W Unit} {tr : List Event} (hn : Silent nested)

theorem keeps_onFsm (f : Fsm → Fsm) : Keeps (fun s : Session W => s.trace = tr) (modify (Session.onFsm f) : M W PUnit) := fun _ h => h

include hn in
theorem keeps_flush : Keeps (fun s : Session W => s.trace = tr) (flush peer nested) := by
  intro s hs
  by_cases ho : s.getOpcode = OP_RSLT_SYN
  · by_cases hsrv : s.isServer = true
    · by_cases hcb : s.flushCb = true
      · rw [flush_syn hsrv ho hcb, hn _ ho]
        exact hs
      · rw [flush_no_callback hsrv ho hcb]
        exact hs
    · rw [flush_client hsrv]
      exact hs
  · rw [flush_other ho]
    exact hs

include hn in
theorem keeps_put (buf : List UInt8) : Keeps (fun s : Session W => s.trace = tr) (put peer nested buf) := by
  induction buf with
  | nil => exact keeps_pure ()
  | cons b buf ih =>
    intro s hs
    by_cases hfull : s.size = BUFFER_SZ
    · rw [put, get_bind, if_pos hfull]
      exact (keeps_flush hn).bind (fun _ => (keeps_onFsm _).bind fun _ => ih) s hs
    · rw [put_cons hfull]
      exact ih _ hs

include hn in
theorem keeps_act (opcode : ℕ) (a : Act) : Keeps (fun s : Session W => s.trace = tr) (act peer nested opcode a) := by
  cases a with
  | reset => exact keeps_onFsm _
  | resetOp op => exact keeps_onFsm _
  | resetType op type => exact keeps_onFsm _
  | put buf => exact keeps_put hn buf
  | flush => exact keeps_flush hn
  | fsmFlush => exact (keeps_onFsm _).bind fun _ => keeps_flush hn

include hn in
theorem keeps_acts (opcode : ℕ) (as : List Act) : Keeps (fun s : Session W => s.trace = tr) (acts peer nested opcode as) := by
  induction as with
  | nil => exact keeps_pure ()
  | cons a as ih => exact (keeps_act hn opcode a).bind fun _ => ih

include hn in
theorem keeps_vmRun (opcode : ℕ) (text : List UInt8) : Keeps (fun s : Session W => s.trace = tr) (vmRun peer B nested opcode text) := by
  refine keeps_get_bind fun s hs => ?_
  generalize B.exec text s.world = r
  obtain ⟨stmt, w⟩ := r
  dsimp only
  rw [set_bind]
  have hs' : ({ s with world := w } : Session W).trace = tr := hs
  cases stmt with
  | malformed e => exact hs'
  | program as e =>
    refine Keeps.bind (keeps_onFsm _) (fun _ => (keeps_acts hn opcode as).bind fun _ => ?_) _ hs'
    cases e with
    | none => exact keeps_onFsm _
    | some e => exact keeps_throw _

include hn in
theorem keeps_reportError (what : List UInt8) (op : ℕ) : Keeps (fun s : Session W => s.trace = tr) (reportError peer nested what op) :=
  (keeps_onFsm _).bind fun _ => (keeps_put hn _).bind fun _ => keeps_flush hn

theorem keeps_tryCatch {α : Type} {x : M W α} {onRuntime : List UInt8 → M W α} {onException : α} {P : Session W → Prop}
    (hx : Keeps P x) (hr : ∀ what, Keeps P (onRuntime what)) : Keeps P (tryCatch x onRuntime onException) := by
  intro s hs
  have hend := hx s hs
  rw [tryCatch]
  split
  · rename_i what s' heq
    rw [heq] at hend
    exact hr what s' hend
  · rename_i s' heq
    rw [heq] at hend
    exact hend
  · exact hend

theorem keeps_stmtText : Keeps (fun s : Session W => s.trace = tr) (stmtText B) := by
  refine keeps_get_bind fun s hs => ?_
  split
  · generalize B.decrypt s.data s.world = r
    obtain ⟨r, w⟩ := r
    dsimp only
    rw [set_bind]
    cases r with
    | ok stmt => exact hs
    | error e => exact hs
  · exact hs

include hn in
theorem keeps_sourceLoop (stmts : List (List UInt8)) : Keeps (fun s : Session W => s.trace = tr) (sourceLoop peer B nested stmts) := by
  induction stmts with
  | nil => exact keeps_pure ()
  | cons stmt stmts ih => exact (keeps_vmRun hn _ stmt).bind fun _ => ih

include hn in
theorem keeps_execSource (stmt : List UInt8) : Keeps (fun s : Session W => s.trace = tr) (execSource peer B nested stmt) := by
  refine keeps_tryCatch (keeps_get_bind fun s hs => ?_) fun what => (keeps_reportError hn what _).bind fun _ => keeps_pure _
  generalize B.source stmt s.world = r
  obtain ⟨r, w⟩ := r
  dsimp only
  rw [set_bind]
  have hs' : ({ s with world := w } : Session W).trace = tr := hs
  match r with
  | none => exact hs'
  | some (.error e) => exact hs'
  | some (.ok lines) => exact Keeps.bind (keeps_sourceLoop hn _) (fun _ => keeps_pure _) _ hs'

include hn in
/-- A statement notes that it is run, and nothing else. -/
theorem rcvdStmt_trace (s : Session W) : (final (rcvdStmt peer B nested s)).trace = s.trace ++ [.statement] := by
  rw [rcvdStmt, modify_bind]
  have hbody : Keeps (fun s' : Session W => s'.trace = s.trace ++ [.statement]) (do
      let stmt ← stmtText B
      if ← execSource peer B nested stmt then pure ()
      else vmRun peer B nested OP_RSLT_FIN stmt) :=
    keeps_stmtText.bind fun stmt => (keeps_execSource hn stmt).bind fun _ => Keeps.ite (keeps_pure ()) (keeps_vmRun hn _ stmt)
  exact keeps_tryCatch hbody (fun what => keeps_reportError hn what _) (s.note .statement) rfl

end Silent

/-! ### Steps -/

variable {nested : M W Unit}

/-- The end of a session is answered. -/
theorem rcvd_term {s : Session W} (h : s.getOpcode = OP_TERM_SYN) :
    rcvd peer B nested s = .ok () (s.onFsm fun s => ((s.resetOp OP_TERM_ACK).send peer).reset.term) := by
  rw [rcvd, get_bind, h]
  show rcvdTerm peer nested s = _
  refine tryCatch_ok ?_
  rw [← bind_assoc, bind_run (resetOp_flush (by decide) (by decide))]
  rfl

/-- A loop behind a message of a result handles an acknowledgement or the end of the session. -/
theorem nested_silent (fuel : ℕ) : Silent (loop peer B fuel) := by
  intro s ho
  cases fuel with
  | zero => rfl
  | succ fuel =>
    by_cases hl : s.loop = true
    · by_cases hsize : (s.onFsm Fsm.recv).size = 0
      · rw [loop, get_bind, if_pos hl, modify_bind, get_bind, if_pos hsize]
        rfl
      · have hend : ∀ t : Session W, t.loop = false → (final (loop peer B fuel t)).trace = t.trace := by
          intro t ht
          cases fuel with
          | zero => rfl
          | succ fuel =>
            rw [loop_done ht]
            rfl
        cases hd : dispatch srvFsm (s.onFsm Fsm.recv).opsent (s.onFsm Fsm.recv).getOpcode with
        | nop =>
          rw [loop_nop hl hsize hd]
          exact hend _ rfl
        | rcvd =>
          rw [loop_rcvd hl hsize hd]
          have ho' : (s.onFsm Fsm.recv).opsent = OP_RSLT_SYN := opsent_recv.trans ho
          have hop : (s.onFsm Fsm.recv).getOpcode = OP_TERM_SYN ∨ (s.onFsm Fsm.recv).getOpcode = OP_RSLT_ACK := by
            have := dispatch_rcvd hd
            rw [ho'] at this
            simpa [OP_RSLT_SYN, OP_TERM_SYN, OP_NULL, OP_CONN_ACK, OP_RSLT_FIN, OP_AUTH_ACK, OP_STMT_ERR] using this
          rcases hop with hop | hop
          · rw [bind_run (rcvd_term hop)]
            exact hend _ rfl
          · rw [bind_run (rcvd_ack hop)]
            exact hend _ rfl
    · rw [loop, get_bind, if_neg hl]
      rfl

/-! ### The invariant -/

/-- What does not note anything and leaves such an opcode keeps the invariant. -/
theorem Inv.of_trace {s s' : Session W} (h : Inv s) (ht : s'.trace = s.trace)
    (ho : s'.opsent = s.opsent ∨ s'.opsent = OP_TERM_ACK) : Inv s' := by
  refine ⟨ht ▸ h.guarded, ht ▸ h.locked, fun hn => ?_, fun he => ?_⟩
  · rcases ho with ho | ho
    · rw [ho]
      exact h.fresh (ht ▸ hn)
    · exact Or.inr (Or.inl ho)
  · rcases ho with ho | ho
    · rw [ho]
      exact h.refused (ht ▸ he)
    · exact Or.inl ho

/-- A key is sent. -/
theorem rcvdConn_run (s : Session W) : ∃ f : Fsm, rcvdConn peer B nested s = .ok () (s.onFsm fun _ => f) ∧ f.opsent = OP_CONN_ACK := by
  let s₁ := s.onFsm fun s => s.resetType OP_CONN_ACK TYPE_TXT
  have hop₁ : s₁.getOpcode = OP_CONN_ACK := (getOpcode_setType _).trans (getOpcode_resetOp (by decide))
  have hop : (s₁.onFsm (putKey B)).getOpcode = OP_CONN_ACK := hop₁
  refine ⟨((putKey B s₁.toFsm).send peer).reset, ?_, hop⟩
  rw [rcvdConn, modify_bind, modify_bind, flush_other (by rw [hop]; decide)]
  rfl

/-- What is noted of an authentication. -/
theorem Inv.of_note {s s' : Session W} {e : Event} (h : Inv s) (ho : s.opsent = OP_CONN_ACK) (ht : s'.trace = s.trace ++ [e])
    (he : e ≠ .statement) (hfresh : e = .accepted ∨ s'.opsent = OP_CONN_ACK ∨ s'.opsent = OP_AUTH_ERR)
    (htold : e.IsTold → s'.opsent = OP_AUTH_ERR) : Inv s' := by
  refine ⟨ht ▸ guarded_append h.guarded fun hs => absurd hs he, ht ▸ noneAfter_append h.locked fun hs => absurd hs he, fun hno => ?_, ?_⟩
  · rcases hfresh with rfl | ho' | ho'
    · exact absurd (ht ▸ List.mem_append_right _ (List.mem_singleton.mpr rfl)) hno
    · exact Or.inr (Or.inr (Or.inl ho'))
    · exact Or.inr (Or.inr (Or.inr ho'))
  · rintro ⟨x, hx, hxt⟩
    rw [ht, List.mem_append, List.mem_singleton] at hx
    rcases hx with hx | rfl
    · have hor := h.refused ⟨x, hx, hxt⟩
      rw [ho] at hor
      exact absurd hor (by decide)
    · exact Or.inr (htold hxt)

/-- The answer of `authenticate` is not noted by itself. -/
theorem authenticate_run (username password : List UInt8) (s : Session W) :
    ∃ found s', authenticate peer B nested username password s = .ok found s' ∧ s'.trace = s.trace := by
  cases hl : B.lookup username password s.world with
  | mk r w =>
    match r with
    | .ok found =>
      refine ⟨found, { s with world := w }, tryCatch_ok ?_, rfl⟩
      rw [get_bind, hl]
      rfl
    | .error .exception =>
      refine ⟨false, { s with world := w }, tryCatch_exception ?_, rfl⟩
      rw [get_bind, hl]
      rfl
    | .error (.runtime what) =>
      obtain ⟨f, msgs, hf, -⟩ := @reportError_said _ peer nested OP_AUTH_ERR (by decide) (by decide) what
        { s with world := w }
      have heq : authenticate peer B nested username password s =
          (reportError peer nested what OP_AUTH_ERR >>= fun _ => pure false) { s with world := w } := by
        refine tryCatch_runtime ?_
        rw [get_bind, hl]
        rfl
      refine ⟨false, Session.onFsm (fun _ => f) { s with world := w }, ?_, rfl⟩
      rw [heq, bind_run hf]
      rfl

theorem rcvdAuth_inv {s : Session W} (h : Inv s) (ho : s.opsent = OP_CONN_ACK) : Inv (final (rcvdAuth peer B nested s)) := by
  cases hdec : B.decrypt s.data s.world with
  | mk r w =>
    match r with
    | .error e =>
      let s' : Session W := Session.note (.failed e) { s with world := w }
      have hcred : decryptCred B s = .error (.thrown e) s' := by
        rw [decryptCred, get_bind, hdec]
        rfl
      cases e with
      | exception =>
        rw [rcvdAuth, tryCatch_exception (bind_throw hcred)]
        exact h.of_note ho rfl (by decide) (Or.inr (Or.inl ho)) (fun hf => hf.elim)
      | runtime what =>
        obtain ⟨f, msgs, hf, -, hop, -⟩ := @reportError_said _ peer nested OP_AUTH_ERR (by decide) (by decide) what s'
        rw [rcvdAuth, tryCatch_runtime (bind_throw hcred), hf]
        exact h.of_note ho rfl (by simp) (Or.inr (Or.inr hop)) fun _ => hop
    | .ok cred =>
      have hcred : decryptCred B s = .ok cred { s with world := w } := by
        rw [decryptCred, get_bind, hdec]
        rfl
      obtain ⟨found, s', hauth, htrace⟩ := @authenticate_run _ peer B nested (credentials cred).1 (credentials cred).2 { s with world := w }
      cases found with
      | true =>
        have hrun : rcvdAuth peer B nested s =
            .ok () ((s'.note .accepted).onFsm fun s => ((s.resetOp OP_AUTH_ACK).send peer).reset) := by
          refine tryCatch_ok ?_
          rw [bind_run hcred, bind_run hauth, if_pos rfl, modify_bind]
          exact resetOp_flush (by decide) (by decide)
        rw [hrun]
        exact h.of_note ho (congrArg (· ++ [Event.accepted]) htrace) (by decide) (Or.inl rfl) fun hf => hf.elim
      | false =>
        have hrun : rcvdAuth peer B nested s =
            .ok () ((s'.note .rejected).onFsm fun s => ((s.resetOp OP_AUTH_ERR).send peer).reset.term) := by
          refine tryCatch_ok ?_
          rw [bind_run hcred, bind_run hauth, if_neg (by decide), modify_bind, ← bind_assoc,
            bind_run (resetOp_flush (by decide) (by decide))]
          rfl
        have hop : (s'.toFsm.resetOp OP_AUTH_ERR).getOpcode = OP_AUTH_ERR := getOpcode_resetOp (by decide)
        rw [hrun]
        exact h.of_note ho (congrArg (· ++ [Event.rejected]) htrace) (by decide) (Or.inr (Or.inr hop)) fun _ => hop

/-- A statement is run where the client has been accepted and nothing has been refused. -/
theorem rcvdStmt_inv (hn : Silent nested) {s : Session W} (h : Inv s)
    (ho : s.opsent = OP_RSLT_FIN ∨ s.opsent = OP_AUTH_ACK ∨ s.opsent = OP_STMT_ERR) : Inv (final (rcvdStmt peer B nested s)) := by
  have hacc : .accepted ∈ s.trace := by
    by_contra hno
    have := h.fresh hno
    simp only [OP_RSLT_FIN, OP_AUTH_ACK, OP_STMT_ERR, OP_NULL, OP_TERM_ACK, OP_CONN_ACK, OP_AUTH_ERR] at *
    omega
  have hnot : ∀ e ∈ s.trace, ¬e.IsTold := by
    intro e he htold
    have := h.refused ⟨e, he, htold⟩
    simp only [OP_RSLT_FIN, OP_AUTH_ACK, OP_STMT_ERR, OP_TERM_ACK, OP_AUTH_ERR] at *
    omega
  have ht := @rcvdStmt_trace _ peer B _ hn s
  refine ⟨ht ▸ guarded_append h.guarded fun _ => hacc, ht ▸ noneAfter_append h.locked fun _ => hnot, fun hno => ?_, ?_⟩
  · rw [ht] at hno
    exact absurd (List.mem_append_left _ hacc) hno
  · rintro ⟨e, he, htold⟩
    rw [ht, List.mem_append, List.mem_singleton] at he
    rcases he with he | rfl
    · exact absurd htold (hnot e he)
    · exact htold.elim

theorem rcvd_inv (hn : Silent nested) {s : Session W} (h : Inv s) (hd : dispatch srvFsm s.opsent s.getOpcode = .rcvd) :
    Inv (final (rcvd peer B nested s)) := by
  rcases dispatch_rcvd hd with hop | ⟨hop, -⟩ | ⟨hop, -⟩ | ⟨hop, ho⟩ | ⟨hop, ho⟩ | ⟨hop, ho⟩
  · rw [rcvd_term hop]
    exact h.of_trace rfl (Or.inr (@getOpcode_resetOp s.toFsm _ (by decide)))
  · rw [rcvd, get_bind, hop]
    exact h.of_trace rfl (Or.inl rfl)
  · rw [rcvd_ack hop]
    exact h.of_trace rfl (Or.inl rfl)
  · obtain ⟨f, hf, hop'⟩ := @rcvdConn_run _ peer B nested s
    rw [rcvd, get_bind, hop]
    show Inv (final (rcvdConn peer B nested s))
    rw [hf]
    refine ⟨h.guarded, h.locked, fun _ => Or.inr (Or.inr (Or.inl hop')), fun he => ?_⟩
    have hor := h.refused he
    rw [ho] at hor
    exact absurd hor (by decide)
  · rw [rcvd, get_bind, hop]
    exact rcvdAuth_inv h ho
  · rw [rcvd, get_bind, hop]
    exact rcvdStmt_inv hn h ho

/-- The loop keeps the invariant, with any messages. -/
theorem loop_inv (fuel : ℕ) {s : Session W} (h : Inv s) : Inv (final (loop peer B fuel s)) := by
  induction fuel generalizing s with
  | zero => exact h
  | succ fuel ih =>
    by_cases hl : s.loop = true
    · have hrecv : Inv (s.onFsm Fsm.recv) := h.of_trace rfl (Or.inl opsent_recv)
      by_cases hsize : (s.onFsm Fsm.recv).size = 0
      · rw [loop, get_bind, if_pos hl, modify_bind, get_bind, if_pos hsize]
        exact hrecv
      · cases hd : dispatch srvFsm (s.onFsm Fsm.recv).opsent (s.onFsm Fsm.recv).getOpcode with
        | nop =>
          rw [loop_nop hl hsize hd]
          exact ih (hrecv.of_trace rfl (Or.inl rfl))
        | rcvd =>
          rw [loop_rcvd hl hsize hd]
          exact final_bind_keeps (rcvd_inv (nested_silent fuel) hrecv hd) fun _ _ => ih
    · rw [loop, get_bind, if_neg hl]
      exact h

/-- A new session. -/
def Session.new (buffer : ℕ → UInt8) (inbox : List Msg) (w : W) : Session W := { Fsm.new true buffer inbox with world := w, trace := [] }

theorem inv_new (buffer : ℕ → UInt8) (inbox : List Msg) (w : W) : Inv (Session.new buffer inbox w) := by
  refine ⟨fun pre post h => ?_, fun pre e post h => ?_, fun _ => Or.inl rfl, ?_⟩
  · exact absurd h.symm (List.append_ne_nil_of_right_ne_nil _ (List.cons_ne_nil _ _))
  · exact absurd h.symm (List.append_ne_nil_of_right_ne_nil _ (List.cons_ne_nil _ _))
  · rintro ⟨e, he, -⟩
    exact absurd he List.not_mem_nil

/-- In every session, with any messages and any server, a statement is run only behind an accepted
authentication. Nothing is run behind a refusal, if no decryption of credentials has thrown an
exception that is not a `std::runtime_error`. -/
theorem statements_authenticated (peer : Msg → List Msg) (B : Backend W) (buffer : ℕ → UInt8) (inbox : List Msg) (w : W) (fuel : ℕ) :
    Guarded (final (loop peer B fuel (Session.new buffer inbox w))).trace ∧
      (.failed .exception ∉ (final (loop peer B fuel (Session.new buffer inbox w))).trace →
        NoneAfter Event.IsRefusal (final (loop peer B fuel (Session.new buffer inbox w))).trace) := by
  have h := @loop_inv _ peer B fuel _ (inv_new buffer inbox w)
  refine ⟨h.guarded, fun hno pre e post heq he => h.locked pre e post heq ?_⟩
  cases e with
  | rejected => trivial
  | failed x =>
    cases x with
    | runtime what => trivial
    | exception => exact absurd (heq ▸ List.mem_append_right _ List.mem_cons_self) hno
  | accepted => exact he.elim
  | statement => exact he.elim

/-- A server that can decrypt what starts with a one, and knows the client. -/
def openBackend : Backend Unit where
  pubkey := some [7, 7, 7]
  decrypt data w := (if data.head? = some 1 then .ok [97, 32, 98] else .error .exception, w)
  lookup _ _ w := (.ok true, w)
  source _ w := (none, w)
  exec _ w := (.program [.reset, .put [79, 75], .fsmFlush] none, w)

/-- Credentials that cannot be decrypted, credentials that can, and a statement. -/
def secondTry : List Msg := [[4, 0], [5, 1, 0], [5, 1, 1], [6, 0, 83, 59]]

/-- The first try fails without an answer, and then there is a second one. -/
theorem secondTry_runs : ¬NoneAfter Event.IsRefusal (final (loop client openBackend 9 (Session.new (fun _ => 0) secondTry ()))).trace := by
  have h : (final (loop client openBackend 9 (Session.new (fun _ => 0) secondTry ()))).trace =
      [.failed .exception, .accepted, .statement] := by decide +kernel
  rw [h]
  intro hn
  exact hn [] (.failed .exception) _ rfl trivial (by decide)

end RedB.Comm
