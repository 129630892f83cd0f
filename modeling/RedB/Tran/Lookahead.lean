import RedB.Tran.Steps

/-!
# Lookahead and speculation

The parser keeps a window of tokens that it has taken from the lexer. The window is emptied when its
last token has been consumed, but not under speculation, which goes back to where it began.

Whatever the parser does, the window is a part of the tokens of the text, the lexer is behind it, and
what has been consumed is what lies before the index (`At`). So no token is lost, repeated or moved
(`lookahead_transparent`).
-/

namespace RedB.Tran

open Runs

/-! ### The tokens of a text -/

/-- The lexer behind its first `n` tokens. -/
def Lexer.after (l : Lexer) : ℕ → Lexer
  | 0 => l
  | n + 1 => (nextToken (l.after n)).2

/-- Token `n` of the lexer. -/
def Lexer.token (l : Lexer) (n : ℕ) : Option Token := (nextToken (l.after n)).1

/-- The lexer throws nothing. -/
def Lexer.Quiet (l : Lexer) : Prop := ∀ n, (l.token n).isSome

/-- The tokens from position `p` on have these types. -/
def Lexer.typesAt (l : Lexer) (p : ℕ) : List Ty → Bool
  | [] => true
  | type :: list => decide ((l.token p).map Token.type = some type) && l.typesAt (p + 1) list

/-! ### What the parser can do -/

/-- The operations on tokens. -/
inductive Action where
  /-- `load_lookahead` -/
  | load (i : ℕ)
  /-- `get_lookahead_type` -/
  | peek (i : ℕ)
  /-- `consume` -/
  | consume
  /-- `match` -/
  | matchType (type : Ty)
  /-- `speculate_list` -/
  | speculate (list : List Ty)
  /-- `speculate_list_to` -/
  | speculateTo (list : List Ty)

/-- An operation returns the tokens that it consumes outside of speculation. -/
def Action.perform : Action → P (List Token)
  | .load i => do
      loadLookahead i
      pure []
  | .peek i => do
      let _ ← getLookaheadType i
      pure []
  | .consume => do
      let s ← get
      Tran.consume
      pure s.cur.toList
  | .matchType type => do
      let s ← get
      Tran.matchType type
      pure s.cur.toList
  | .speculate list => do
      let _ ← speculateList list
      pure []
  | .speculateTo list => do
      let _ ← speculateListTo list
      pure []

/-- An operation that throws consumes nothing; the parser goes on if the caller has caught it. -/
def Action.step (a : Action) (s : PState) : List Token × PState :=
  match a.perform s with
  | .ok ts s' => (ts, s')
  | .error _ s' => ([], s')

/-- Operations one after the other, and what they have consumed together. -/
def performAll : List Action → PState → List Token × PState
  | [], s => ([], s)
  | a :: as, s => ((a.step s).1 ++ (performAll as (a.step s).2).1, (performAll as (a.step s).2).2)

/-! ### The window -/

/-- The tokens in the window are those from `base` on, and the lexer is behind them. -/
structure Window (l : Lexer) (base : ℕ) (s : PState) : Prop where
  tokens : ∀ i < s.lookahead.length, s.lookahead[i]? = l.token (base + i)
  lexer : s.lexer = l.after (base + s.lookahead.length)

/-- The parser is at position `p` of the tokens, and does not speculate. -/
structure At (l : Lexer) (p : ℕ) (s : PState) : Prop where
  window : ∃ base, Window l base s ∧ base + s.index = p
  ready : s.index < s.lookahead.length
  mark : s.mark = none

/-- The window has grown, and nothing else has changed. -/
structure Grown (s s' : PState) : Prop where
  index : s'.index = s.index
  mark : s'.mark = s.mark
  lookahead : s.lookahead <+: s'.lookahead

/-- What the parser says at position `p`: types that are loaded are those of the tokens, speculation
answers if the next tokens have the types, and stays where it is. -/
structure Answers (l : Lexer) (p : ℕ) (s : PState) : Prop where
  peek : ∀ i, s.index + i < s.lookahead.length → ∃ tok, l.token (p + i) = some tok ∧ getLookaheadType i s = .ok tok.type s
  speculate : ∀ list, ∃ s', speculateList list s = .ok (l.typesAt p list) s' ∧ Grown s s' ∧ At l p s'
  speculateTo : ∀ list, speculateListTo list s = .ok (list.any fun type => l.typesAt p [type]) s

variable {l : Lexer} {base p : ℕ} {s s' : PState}

theorem Grown.refl (s : PState) : Grown s s := ⟨rfl, rfl, List.prefix_rfl⟩

theorem Window.cur (hw : Window l base s) (h : s.index < s.lookahead.length) : s.cur = l.token (base + s.index) :=
  hw.tokens s.index h

/-- The lexer that throws nothing has tokens to load. -/
theorem Window.load (hq : l.Quiet) (n : ℕ) (hw : Window l base s) :
    ∃ s', loadTokens n s = .ok () s' ∧ Window l base s' ∧ Grown s s' ∧ s'.lookahead.length = s.lookahead.length + n := by
  induction n generalizing s with
  | zero => exact ⟨s, rfl, hw, .refl s, rfl⟩
  | succ n ih =>
    obtain ⟨tok, htok⟩ := Option.isSome_iff_exists.mp (hq (base + s.lookahead.length))
    have hnext : nextToken s.lexer = (some tok, l.after (base + s.lookahead.length + 1)) := by
      rw [hw.lexer]
      exact Prod.ext htok rfl
    let s₁ : PState := { s with lexer := l.after (base + s.lookahead.length + 1), lookahead := s.lookahead ++ [tok] }
    have hw₁ : Window l base s₁ := by
      refine ⟨fun i hi => ?_, ?_⟩
      · have hi' : i < s.lookahead.length + 1 := by simpa [s₁] using hi
        rcases Nat.lt_succ_iff_lt_or_eq.mp hi' with hlt | rfl
        · exact (List.getElem?_append_left hlt).trans (hw.tokens i hlt)
        · rw [htok]
          exact List.getElem?_concat_length
      · simp [s₁, Nat.add_assoc]
    obtain ⟨s', hrun, hw', hg, hlen⟩ := ih hw₁
    refine ⟨s', ?_, hw', ⟨hg.index, hg.mark, (List.prefix_append _ _).trans hg.lookahead⟩, ?_⟩
    · rw [loadTokens, get_bind, hnext]
      exact hrun
    · rw [hlen]
      simp only [s₁, List.length_append, List.length_singleton]
      omega

theorem Window.loadLookahead (hq : l.Quiet) (i : ℕ) (hw : Window l base s) :
    ∃ s', loadLookahead i s = .ok () s' ∧ Window l base s' ∧ Grown s s' ∧ s'.index + i ≤ s'.lookahead.length := by
  obtain ⟨s', hrun, hw', hg, hlen⟩ := hw.load hq (s.index + i - s.lookahead.length)
  refine ⟨s', hrun, hw', hg, ?_⟩
  rw [hg.index, hlen]
  omega

/-- A token that has been loaded is looked at. -/
theorem Window.peek (hw : Window l base s) {i : ℕ} (h : s.index + i < s.lookahead.length) :
    ∃ tok, l.token (base + (s.index + i)) = some tok ∧ getLookaheadType i s = .ok tok.type s := by
  have htok := hw.tokens (s.index + i) h
  obtain ⟨tok, hget⟩ : ∃ tok, s.lookahead[s.index + i]? = some tok := ⟨_, List.getElem?_eq_getElem h⟩
  refine ⟨tok, htok.symm.trans hget, ?_⟩
  have hrun : getLookaheadToken i s = .ok tok s := by
    rw [getLookaheadToken, bind_of_ok (loadLookahead_loaded h.le), bind_of_ok (get_run s), hget]
    rfl
  rw [getLookaheadType, bind_of_ok hrun]
  rfl

/-- `consume` goes on to the next token, and keeps the window under speculation. -/
theorem Window.consume (hq : l.Quiet) (hw : Window l base s) (h : s.index < s.lookahead.length) :
    ∃ base' s', consume s = .ok () s' ∧ Window l base' s' ∧ base' + s'.index = base + s.index + 1 ∧
      s'.index < s'.lookahead.length ∧ s'.mark = s.mark ∧ (s.mark ≠ none → base' = base ∧ s.lookahead <+: s'.lookahead) := by
  obtain ⟨base₁, hw₁, hpos, hle, hmark, hkept⟩ : ∃ base₁, Window l base₁ s.advance ∧
      base₁ + s.advance.index = base + s.index + 1 ∧ s.advance.index ≤ s.advance.lookahead.length ∧ s.advance.mark = s.mark ∧
      (s.mark ≠ none → base₁ = base ∧ s.advance.lookahead = s.lookahead) := by
    by_cases hlast : s.mark = none ∧ s.lookahead.length ≤ s.index + 1
    · rw [PState.advance, if_pos hlast]
      have hlen : s.lookahead.length = s.index + 1 := by omega
      refine ⟨base + s.lookahead.length, ⟨fun i hi => absurd hi (Nat.not_lt_zero i), hw.lexer⟩, ?_, Nat.le_refl _, rfl,
        fun hm => absurd hlast.1 hm⟩
      simp only [hlen]
      omega
    · rw [PState.advance, if_neg hlast]
      exact ⟨base, ⟨hw.tokens, hw.lexer⟩, (Nat.add_assoc ..).symm, h, rfl, fun _ => ⟨rfl, rfl⟩⟩
  obtain ⟨s', hrun, hw', hg, hready⟩ := hw₁.loadLookahead hq 1
  refine ⟨base₁, s', hrun, hw', by rw [hg.index, hpos], by omega, hg.mark.trans hmark, fun hm => ?_⟩
  obtain ⟨hbase, hlook⟩ := hkept hm
  exact ⟨hbase, hlook ▸ hg.lookahead⟩

/-- Under speculation the tokens are matched within the window. -/
theorem Window.matchAll (hq : l.Quiet) (list : List Ty) (hw : Window l base s) (h : s.index < s.lookahead.length)
    (hm : s.mark ≠ none) : ∃ s', Window l base s' ∧ s'.mark = s.mark ∧ s.lookahead <+: s'.lookahead ∧
      if l.typesAt (base + s.index) list then matchAll list s = .ok () s' else ∃ e, matchAll list s = .error e s' := by
  induction list generalizing s with
  | nil => exact ⟨s, hw, rfl, List.prefix_rfl, rfl⟩
  | cons type list ih =>
    obtain ⟨tok, htok, hpeek⟩ := hw.peek (i := 0) h
    rw [Nat.add_zero] at htok
    by_cases ht : tok.type = type
    · obtain ⟨base', s₁, hrun, hw₁, hpos, hready, hmark, hkept⟩ := hw.consume hq h
      obtain ⟨rfl, hlook⟩ := hkept hm
      have hmatch : matchType type s = .ok () s₁ := by
        rw [matchType, bind_of_ok hpeek, if_neg (not_not.mpr ht)]
        exact hrun
      have htypes : l.typesAt (base' + s.index) (type :: list) = l.typesAt (base' + s₁.index) list := by
        rw [Lexer.typesAt, htok, Option.map_some, ht, decide_eq_true rfl, Bool.true_and, hpos]
      obtain ⟨s', hw', hmark', hlook', hif⟩ := ih hw₁ hready (hmark ▸ hm)
      refine ⟨s', hw', hmark'.trans hmark, hlook.trans hlook', ?_⟩
      rw [htypes, matchAll, bind_of_ok hmatch]
      exact hif
    · have hmatch : matchType type s = .error .token s := by
        rw [matchType, bind_of_ok hpeek, if_pos ht]
        rfl
      have htypes : l.typesAt (base + s.index) (type :: list) = false := by
        rw [Lexer.typesAt, htok, Option.map_some, decide_eq_false (fun h => ht (Option.some.inj h)), Bool.false_and]
      refine ⟨s, hw, rfl, List.prefix_rfl, ?_⟩
      rw [htypes, matchAll, bind_of_error hmatch]
      exact ⟨.token, rfl⟩

/-- Speculation answers, and goes back. -/
theorem At.speculate (hq : l.Quiet) (hs : At l p s) (list : List Ty) :
    ∃ s', speculateList list s = .ok (l.typesAt p list) s' ∧ Grown s s' ∧ At l p s' := by
  obtain ⟨⟨base, hw, rfl⟩, hready, hmark⟩ := hs
  have hw₁ : Window l base { s with mark := some s.index } := ⟨hw.tokens, hw.lexer⟩
  obtain ⟨s₁, hw₂, hmark₁, hlook, hif⟩ := hw₁.matchAll hq list hready (Option.some_ne_none _)
  have hback : s₁.mark.getD 0 = s.index := by rw [hmark₁]; rfl
  refine ⟨{ s₁ with index := s.index, mark := none }, ?_, ⟨rfl, hmark.symm, hlook⟩,
    ⟨⟨base, ⟨hw₂.tokens, hw₂.lexer⟩, rfl⟩, Nat.lt_of_lt_of_le hready hlook.length_le, rfl⟩⟩
  cases ht : l.typesAt (base + s.index) list with
  | true =>
    rw [ht, if_pos rfl] at hif
    rw [speculateList, hif, ← hback]
  | false =>
    rw [ht, if_neg Bool.false_ne_true] at hif
    obtain ⟨e, hif⟩ := hif
    rw [speculateList, hif, ← hback]

theorem At.speculateTo (hs : At l p s) (list : List Ty) :
    speculateListTo list s = .ok (list.any fun type => l.typesAt p [type]) s := by
  obtain ⟨⟨base, hw, rfl⟩, hready, -⟩ := hs
  obtain ⟨tok, htok, hpeek⟩ := hw.peek (i := 0) hready
  rw [Nat.add_zero] at htok
  induction list with
  | nil => rfl
  | cons type list ih =>
    rw [speculateListTo, bind_of_ok hpeek, List.any_cons]
    by_cases ht : tok.type = type
    · rw [if_pos ht]
      simp [Lexer.typesAt, htok, ht]
      rfl
    · rw [if_neg ht, ih]
      simp [Lexer.typesAt, htok, ht]

theorem At.answers (hq : l.Quiet) (hs : At l p s) : Answers l p s where
  peek i hi := by
    obtain ⟨⟨base, hw, rfl⟩, -, -⟩ := hs
    rw [Nat.add_assoc]
    exact hw.peek hi
  speculate := hs.speculate hq
  speculateTo := hs.speculateTo

/-! ### Runs -/

/-- What an operation comes to at position `p`: it consumes nothing, or the next token. -/
inductive Stepped (l : Lexer) (p : ℕ) : List Token × PState → Prop where
  | stay {s : PState} : At l p s → Stepped l p ([], s)
  | read {tok : Token} {s : PState} : l.token p = some tok → At l (p + 1) s → Stepped l p ([tok], s)

theorem At.grown (hs : At l p s) {base : ℕ} (hw : Window l base s') (hbase : base + s.index = p) (hg : Grown s s') : At l p s' :=
  ⟨⟨base, hw, by rw [hg.index, hbase]⟩, by
    have := hg.lookahead.length_le
    have := hs.ready
    rw [hg.index]
    omega, hg.mark.trans hs.mark⟩

/-- Loading and looking at tokens leave the parser where it is. -/
theorem At.load (hq : l.Quiet) (hs : At l p s) (i : ℕ) : ∃ s', loadLookahead i s = .ok () s' ∧ At l p s' := by
  obtain ⟨base, hw, hbase⟩ := hs.window
  obtain ⟨s', hrun, hw', hg, -⟩ := hw.loadLookahead hq i
  exact ⟨s', hrun, hs.grown hw' hbase hg⟩

theorem At.peek (hq : l.Quiet) (hs : At l p s) (i : ℕ) :
    ∃ s', At l p s' ∧ ((∃ type, getLookaheadType i s = .ok type s') ∨ getLookaheadType i s = .error .range s') := by
  obtain ⟨s', hrun, hs'⟩ := hs.load hq i
  refine ⟨s', hs', ?_⟩
  cases hget : s'.lookahead[s'.index + i]? with
  | some tok =>
    have htok : getLookaheadToken i s = .ok tok s' := by
      rw [getLookaheadToken, bind_of_ok hrun, bind_of_ok (get_run s'), hget]
      rfl
    refine .inl ⟨tok.type, ?_⟩
    rw [getLookaheadType, bind_of_ok htok]
    rfl
  | none =>
    refine .inr (bind_of_error ?_)
    rw [getLookaheadToken, bind_of_ok hrun, bind_of_ok (get_run s'), hget]
    rfl

theorem At.consume (hq : l.Quiet) (hs : At l p s) :
    ∃ tok s', s.cur = some tok ∧ l.token p = some tok ∧ consume s = .ok () s' ∧ At l (p + 1) s' := by
  obtain ⟨base, hw, hbase⟩ := hs.window
  obtain ⟨tok, htok⟩ := Option.isSome_iff_exists.mp (hq p)
  obtain ⟨base', s', hrun, hw', hpos, hready, hmark, -⟩ := hw.consume hq hs.ready
  refine ⟨tok, s', by rw [hw.cur hs.ready, hbase, htok], htok, hrun, ⟨base', hw', ?_⟩, hready, hmark.trans hs.mark⟩
  rw [hpos, hbase]

theorem At.step (hq : l.Quiet) (hs : At l p s) (a : Action) : Stepped l p (a.step s) := by
  cases a with
  | load i =>
    obtain ⟨s', hrun, hs'⟩ := hs.load hq i
    rw [Action.step, Action.perform, bind_of_ok hrun]
    exact .stay hs'
  | peek i =>
    obtain ⟨s', hs', ⟨type, hrun⟩ | hrun⟩ := hs.peek hq i
    · rw [Action.step, Action.perform, bind_of_ok hrun]
      exact .stay hs'
    · rw [Action.step, Action.perform, bind_of_error hrun]
      exact .stay hs'
  | consume =>
    obtain ⟨tok, s', hcur, htok, hrun, hs'⟩ := hs.consume hq
    rw [Action.step, Action.perform, bind_of_ok (get_run s), bind_of_ok hrun, hcur]
    exact .read htok hs'
  | matchType type =>
    obtain ⟨tok, s', hcur, htok, hrun, hs'⟩ := hs.consume hq
    have hpeek := getLookaheadType_loaded hcur
    by_cases ht : tok.type = type
    · have hmatch : Tran.matchType type s = .ok () s' := by
        rw [Tran.matchType, bind_of_ok hpeek, if_neg (not_not.mpr ht)]
        exact hrun
      rw [Action.step, Action.perform, bind_of_ok (get_run s), bind_of_ok hmatch, hcur]
      exact .read htok hs'
    · have hmatch : Tran.matchType type s = .error .token s := by
        rw [Tran.matchType, bind_of_ok hpeek, if_pos ht]
        rfl
      rw [Action.step, Action.perform, bind_of_ok (get_run s), bind_of_error hmatch]
      exact .stay hs
  | speculate list =>
    obtain ⟨s', hrun, -, hs'⟩ := hs.speculate hq list
    rw [Action.step, Action.perform, bind_of_ok hrun]
    exact .stay hs'
  | speculateTo list =>
    rw [Action.step, Action.perform, bind_of_ok (hs.speculateTo list)]
    exact .stay hs

/-- What a run consumes are the next tokens in their order, and the parser is behind them. -/
theorem At.run (hq : l.Quiet) (as : List Action) (hs : At l p s) :
    (performAll as s).1.map some = (List.range (performAll as s).1.length).map (fun i => l.token (p + i)) ∧
      At l (p + (performAll as s).1.length) (performAll as s).2 := by
  induction as generalizing p s with
  | nil => exact ⟨rfl, hs⟩
  | cons a as ih =>
    have hstep := hs.step hq a
    rw [performAll]
    generalize a.step s = r at hstep
    cases hstep with
    | stay hs' => exact ih hs'
    | read htok hs' =>
      obtain ⟨htoks, hat⟩ := ih hs'
      simp only [List.singleton_append, List.length_cons]
      refine ⟨?_, ?_⟩
      · rw [List.map_cons, htoks, List.range_succ_eq_map, List.map_cons, List.map_map]
        refine List.cons_eq_cons.mpr ⟨htok.symm, List.map_congr_left fun i _ => ?_⟩
        rw [Function.comp_apply, Nat.succ_eq_add_one, Nat.add_right_comm, Nat.add_assoc]
      · rwa [Nat.add_right_comm, Nat.add_assoc] at hat

/-- Lookahead and speculation are not seen: on a text that the lexer takes, what any sequence of
operations has consumed are the first tokens of the text in their order, and all answers are about
the tokens behind them. -/
theorem lookahead_transparent {sql : Text} (hq : (Lexer.mk sql []).Quiet) :
    ∃ s₀, loadLookahead 1 (start sql) = .ok () s₀ ∧ ∀ as,
      (performAll as s₀).1.map some = (List.range (performAll as s₀).1.length).map (Lexer.mk sql []).token ∧
        At ⟨sql, []⟩ (performAll as s₀).1.length (performAll as s₀).2 ∧
        Answers ⟨sql, []⟩ (performAll as s₀).1.length (performAll as s₀).2 := by
  have hw : Window ⟨sql, []⟩ 0 (start sql) := ⟨fun i hi => absurd hi (Nat.not_lt_zero i), rfl⟩
  obtain ⟨s₀, hrun, hw', hg, hlen⟩ := hw.loadLookahead hq 1
  have hs₀ : At ⟨sql, []⟩ 0 s₀ := ⟨⟨0, hw', by rw [hg.index]; rfl⟩, hlen, hg.mark⟩
  refine ⟨s₀, hrun, fun as => ?_⟩
  obtain ⟨htoks, hat⟩ := hs₀.run hq as
  simp only [Nat.zero_add] at htoks hat
  exact ⟨htoks, hat, hat.answers hq⟩

/-! ### A text without errors -/

theorem Lexer.after_succ (l : Lexer) (n : ℕ) : l.after (n + 1) = (nextToken l).2.after n := by
  induction n with
  | zero => rfl
  | succ n ih => rw [Lexer.after, ih, Lexer.after]

theorem Lexer.Quiet.cons {tok : Token} {l' : Lexer} (h : nextToken l = (some tok, l')) (hq : l'.Quiet) : l.Quiet := by
  rintro (_ | n)
  · rw [Lexer.token, Lexer.after, h]
    rfl
  · rw [Lexer.token, Lexer.after_succ, h]
    exact hq n

/-- Behind the last character there is `<EOI>` again and again. -/
theorem Lexer.quiet_eoi (h : ch l.input = EOI) : l.Quiet := by
  have hnext : nextToken l = (some ⟨.eoi, "<EOI>".toList⟩, l) := by rw [nextToken, if_pos h]
  intro n
  induction n with
  | zero =>
    rw [Lexer.token, Lexer.after, hnext]
    rfl
  | succ n ih =>
    rw [Lexer.token, Lexer.after_succ, hnext]
    exact ih

theorem quiet_assign : (Lexer.mk "a=1".toList []).Quiet := by
  have hname : nextToken ⟨"a=1".toList, []⟩ = (some ⟨.name, ['a']⟩, ⟨['=', '1'], [⟨.name, ['a']⟩]⟩) := by
    rw [nextToken]
    rfl
  have heq : nextToken ⟨['=', '1'], [⟨.name, ['a']⟩]⟩ = (some ⟨.eq, ['=']⟩, ⟨['1'], [⟨.name, ['a']⟩, ⟨.eq, ['=']⟩]⟩) := by
    rw [nextToken]
    rfl
  have hint : nextToken ⟨['1'], [⟨.name, ['a']⟩, ⟨.eq, ['=']⟩]⟩ =
      (some ⟨.int, ['1']⟩, ⟨[], [⟨.name, ['a']⟩, ⟨.eq, ['=']⟩, ⟨.int, ['1']⟩]⟩) := by
    rw [nextToken]
    rfl
  exact .cons hname (.cons heq (.cons hint (Lexer.quiet_eoi rfl)))

theorem lookahead_transparent_assign :
    ∃ s₀, loadLookahead 1 (start "a=1".toList) = .ok () s₀ ∧ ∀ as,
      (performAll as s₀).1.map some = (List.range (performAll as s₀).1.length).map (Lexer.mk "a=1".toList []).token ∧
        At ⟨"a=1".toList, []⟩ (performAll as s₀).1.length (performAll as s₀).2 ∧
        Answers ⟨"a=1".toList, []⟩ (performAll as s₀).1.length (performAll as s₀).2 :=
  lookahead_transparent quiet_assign

end RedB.Tran
