import RedB.Theory.Runs
import RedB.Tran.Shape

/-!
# What the steps of the parser do

A successful run is taken apart at each bind. What is the same of all steps of an
expression is kept in `Reads`: the tokens that have been read, the invariant, and that data
records stay where they are.
-/

namespace RedB.Tran

open Runs

/-! ### Tokens -/

/-- The lexer returns these tokens, one after the other. -/
inductive Lexes : Text → List Token → Text → Prop where
  | nil (input : Text) : Lexes input [] input
  | cons {l l' : Lexer} {tok : Token} {ts : List Token} {rest : Text} :
      nextToken l = (some tok, l') → Lexes l'.input ts rest → Lexes l.input (tok :: ts) rest

theorem Lexes.append {i j k : Text} {ts us : List Token} (h : Lexes i ts j) (h' : Lexes j us k) : Lexes i (ts ++ us) k := by
  induction h with
  | nil => exact h'
  | cons h1 _ ih => exact .cons h1 (ih h')

/-- What the lexer returns goes by the characters ahead. -/
theorem nextToken_input {l l' : Lexer} (h : l.input = l'.input) :
    (nextToken l).1 = (nextToken l').1 ∧ (nextToken l).2.input = (nextToken l').2.input := by
  induction l using nextToken.induct generalizing l' with
  | case1 l heoi =>
    rw [nextToken, if_pos heoi, nextToken, if_pos (h ▸ heoi)]
    exact ⟨rfl, h⟩
  | case2 l heoi hws ih =>
    rw [nextToken, if_neg heoi, dif_pos hws, nextToken.eq_def l', if_neg (h ▸ heoi), dif_pos (h ▸ hws)]
    exact ih (congrArg (fun input => (ws input).2) h)
  | case3 l heoi hws hc ih =>
    rw [nextToken, if_neg heoi, dif_neg hws, dif_pos hc, nextToken.eq_def l', if_neg (h ▸ heoi), dif_neg (h ▸ hws), dif_pos (h ▸ hc)]
    exact ih (congrArg (fun input => (comment input).2) h)
  | case4 l heoi hws hc tok rest hone =>
    rw [nextToken, if_neg heoi, dif_neg hws, dif_neg hc, hone, nextToken, if_neg (h ▸ heoi), dif_neg (h ▸ hws), dif_neg (h ▸ hc),
      ← h, hone]
    exact ⟨rfl, rfl⟩
  | case5 l heoi hws hc rest hone =>
    rw [nextToken, if_neg heoi, dif_neg hws, dif_neg hc, hone, nextToken, if_neg (h ▸ heoi), dif_neg (h ▸ hws), dif_neg (h ▸ hc),
      ← h, hone]
    exact ⟨rfl, rfl⟩

/-- Behind the tokens up to the end of a text there is nothing but `<EOI>`. -/
theorem Lexes.mem {i j k : Text} {ts us : List Token} (h : Lexes i ts j) (h' : Lexes i us k) (hk : ch k = EOI) :
    ∀ t ∈ ts, t ∈ us ∨ t = ⟨.eoi, "<EOI>".toList⟩ := by
  induction h generalizing us with
  | nil => exact fun t ht => absurd ht List.not_mem_nil
  | @cons l l' tok ts rest hn _ ih =>
    generalize hi : l.input = i at h'
    cases h' with
    | nil =>
      rw [nextToken, if_pos (hi ▸ hk)] at hn
      obtain ⟨htok, rfl⟩ := Prod.mk.inj hn
      intro t ht
      rcases List.mem_cons.mp ht with rfl | ht
      · exact .inr (Option.some.inj htok).symm
      · exact (@ih [] (hi ▸ .nil _) t ht).imp_left fun h => absurd h List.not_mem_nil
    | @cons m m' tok' us _ hn' h' =>
      obtain ⟨h1, h2⟩ := nextToken_input hi
      rw [hn, hn'] at h1 h2
      obtain rfl := Option.some.inj h1
      intro t ht
      rcases List.mem_cons.mp ht with rfl | ht
      · exact .inl List.mem_cons_self
      · exact (ih (show Lexes l'.input us k from (show l'.input = m'.input from h2) ▸ h') t ht).imp_left (List.mem_cons_of_mem _)

/-- What holds of the parser between its steps. -/
structure PState.Wf (s : PState) : Prop where
  /-- The next token has been loaded. -/
  ready : s.index < s.lookahead.length
  mark : s.mark = none
  lookahead : ∀ t ∈ s.lookahead, t.Shape
  tokenList : ∀ t ∈ s.lexer.tokenList, t.Shape
  /-- The first record is the empty text. -/
  first : s.data[0]? = some ⟨.schemaVarchar, empty⟩
  pooled : ∀ r ∈ s.data, r.Pooled

/-- The tokens that have been loaded and not read. -/
def PState.ahead (s : PState) : List Token := s.lookahead.drop s.index

/-- What a step does that reads the tokens `ts`. -/
structure Reads (s : PState) (ts : List Token) (s' : PState) : Prop where
  /-- What was ahead and what has been loaded is what has been read and what is ahead. -/
  stream : ∃ us, Lexes s.lexer.input us s'.lexer.input ∧ s.ahead ++ us = ts ++ s'.ahead
  wf : s'.Wf
  data : s.data <+: s'.data
  code : s'.code = s.code

theorem Reads.refl {s : PState} (h : s.Wf) : Reads s [] s :=
  ⟨⟨[], .nil _, List.append_nil _⟩, h, List.prefix_rfl, rfl⟩

theorem Reads.trans {s s' s'' : PState} {ts us : List Token} (h : Reads s ts s') (h' : Reads s' us s'') :
    Reads s (ts ++ us) s'' := by
  obtain ⟨ns, hn, he⟩ := h.stream
  obtain ⟨ns', hn', he'⟩ := h'.stream
  refine ⟨⟨ns ++ ns', hn.append hn', ?_⟩, h'.wf, h.data.trans h'.data, h'.code.trans h.code⟩
  rw [← List.append_assoc, he, List.append_assoc, he', List.append_assoc]

/-- The token ahead. -/
def PState.cur (s : PState) : Option Token := s.lookahead[s.index]?

theorem PState.Wf.cur {s : PState} (h : s.Wf) : ∃ tok, s.cur = some tok ∧ tok.Shape ∧ s.ahead = tok :: s.ahead.tail := by
  refine ⟨s.lookahead.get ⟨s.index, h.ready⟩, List.getElem?_eq_getElem h.ready, h.lookahead _ (List.getElem_mem _), ?_⟩
  rw [PState.ahead, List.drop_eq_getElem_cons h.ready, List.tail_cons]
  rfl

/-! ### Loading -/

theorem loadTokens_ok {n : ℕ} {s s' : PState} {u : Unit} (h : loadTokens n s = .ok u s') :
    ∃ us l, s' = { s with lexer := l, lookahead := s.lookahead ++ us } ∧ us.length = n ∧
      Lexes s.lexer.input us l.input ∧ (∀ t ∈ us, t.Shape) ∧
      ∃ ts, l.tokenList = s.lexer.tokenList ++ ts ∧ ∀ t ∈ ts, t.Shape := by
  induction n generalizing s with
  | zero =>
    obtain ⟨-, rfl⟩ := pure_ok.mp h
    exact ⟨[], s.lexer, by simp, rfl, .nil _, by simp, [], by simp, by simp⟩
  | succ n ih =>
    obtain ⟨s0, s1, hget, h⟩ := bind_ok.mp h
    obtain ⟨rfl, rfl⟩ := get_ok.mp hget
    cases hn : nextToken s.lexer with
    | mk tok l =>
      rw [hn] at h
      obtain ⟨h1, ts, h2, h3⟩ := nextToken_shape hn
      cases tok with
      | none =>
        obtain ⟨_, s2, -, h⟩ := bind_ok.mp h
        obtain ⟨_, s3, hx, -⟩ := bind_ok.mp h
        cases throw_ok.mp hx
      | some tok =>
        obtain ⟨_, s2, hset, h⟩ := bind_ok.mp h
        obtain rfl := set_ok.mp hset
        obtain ⟨us, l', rfl, hlen, hlex, hshape, ts', hts', hs'⟩ := ih h
        refine ⟨tok :: us, l', by simp, by rw [List.length_cons, hlen], .cons hn hlex, ?_, ts ++ ts', ?_, ?_⟩
        · rintro t (_ | ⟨_, ht⟩)
          · exact h1 _ rfl
          · exact hshape t ht
        · rw [hts', h2, List.append_assoc]
        · intro t ht
          rcases List.mem_append.mp ht with ht | ht
          · exact h3 t ht
          · exact hs' t ht

/-- Loading reads nothing. -/
theorem loadLookahead_reads {i : ℕ} {s s' : PState} {u : Unit} (h : loadLookahead i s = .ok u s') (hs : s.Wf) :
    Reads s [] s' ∧ s'.data = s.data ∧ s'.cur = s.cur ∧ s'.index + i ≤ s'.lookahead.length := by
  obtain ⟨s0, s1, hget, h⟩ := bind_ok.mp h
  obtain ⟨rfl, rfl⟩ := get_ok.mp hget
  obtain ⟨us, l, rfl, hlen, hlex, hshape, ts, hts, hs'⟩ := loadTokens_ok h
  refine ⟨⟨⟨us, hlex, ?_⟩, ⟨?_, hs.mark, ?_, ?_, hs.first, hs.pooled⟩, List.prefix_rfl, rfl⟩, rfl, ?_, ?_⟩
  · simp only [PState.ahead]
    rw [List.drop_append_of_le_length hs.ready.le, List.nil_append]
  · simp only [List.length_append]
    exact Nat.lt_add_right _ hs.ready
  · intro t ht
    rcases List.mem_append.mp ht with ht | ht
    · exact hs.lookahead t ht
    · exact hshape t ht
  · intro t ht
    simp only [hts] at ht
    rcases List.mem_append.mp ht with ht | ht
    · exact hs.tokenList t ht
    · exact hs' t ht
  · exact List.getElem?_append_left hs.ready
  · simp only [List.length_append, hlen]
    omega

/-- The parser is ready when the first token has been loaded. -/
theorem start_wf {sql : Text} {i : ℕ} {s : PState} {u : Unit} (h : loadLookahead i (start sql) = .ok u s) (hi : i ≠ 0) : s.Wf := by
  obtain ⟨s0, s1, hget, h⟩ := bind_ok.mp h
  obtain ⟨rfl, rfl⟩ := get_ok.mp hget
  obtain ⟨us, l, rfl, hlen, -, hshape, ts, hts, hs'⟩ := loadTokens_ok h
  refine ⟨?_, rfl, ?_, ?_, rfl, ?_⟩
  · simp only [start, List.nil_append, hlen, List.length_nil]
    omega
  · simpa [start] using hshape
  · simpa [hts, start] using hs'
  · rintro r (_ | ⟨_, ⟨⟩⟩)
    exact .first

/-- What has been loaded are the first tokens of the text. -/
theorem start_ahead {sql : Text} {i : ℕ} {s : PState} {u : Unit} (h : loadLookahead i (start sql) = .ok u s) :
    Lexes sql s.ahead s.lexer.input := by
  obtain ⟨s0, s1, hget, h⟩ := bind_ok.mp h
  obtain ⟨rfl, rfl⟩ := get_ok.mp hget
  obtain ⟨us, l, rfl, -, hlex, -⟩ := loadTokens_ok h
  exact hlex

theorem getLookaheadToken_zero {s s' : PState} {tok : Token} (h : getLookaheadToken 0 s = .ok tok s') (hs : s.Wf) :
    s' = s ∧ s.cur = some tok ∧ tok.Shape := by
  obtain ⟨_, s1, hload, h⟩ := bind_ok.mp h
  obtain ⟨s0, _, hget, hload⟩ := bind_ok.mp hload
  obtain ⟨rfl, rfl⟩ := get_ok.mp hget
  rw [Nat.add_zero, Nat.sub_eq_zero_of_le hs.ready.le] at hload
  obtain ⟨-, rfl⟩ := pure_ok.mp hload
  obtain ⟨s0, _, hget, h⟩ := bind_ok.mp h
  obtain ⟨rfl, rfl⟩ := get_ok.mp hget
  obtain ⟨tok', hcur, hshape, -⟩ := hs.cur
  rw [Nat.add_zero, show s.lookahead[s.index]? = some tok' from hcur] at h
  obtain ⟨rfl, rfl⟩ := pure_ok.mp h
  exact ⟨rfl, hcur, hshape⟩

theorem getLookaheadType_zero {s s' : PState} {type : Ty} (h : getLookaheadType 0 s = .ok type s') (hs : s.Wf) :
    s' = s ∧ ∃ tok, s.cur = some tok ∧ tok.Shape ∧ tok.type = type := by
  obtain ⟨tok, htok, rfl⟩ := map_ok.mp h
  obtain ⟨rfl, hcur, hshape⟩ := getLookaheadToken_zero htok hs
  exact ⟨rfl, tok, hcur, hshape, rfl⟩

/-! ### Reading -/

/-- `consume` reads the token ahead. -/
theorem consume_reads {s s' : PState} {u : Unit} (h : consume s = .ok u s') (hs : s.Wf) {tok : Token} (hcur : s.cur = some tok) :
    Reads s [tok] s' ∧ s'.data = s.data := by
  obtain ⟨_, s1, hmod, h⟩ := bind_ok.mp h
  obtain rfl := modify_ok.mp hmod
  obtain ⟨s0, s1, hget, h⟩ := bind_ok.mp h
  obtain ⟨rfl, rfl⟩ := get_ok.mp hget
  obtain ⟨us, l, rfl, hlen, hlex, hshape, ts, hts, hs'⟩ := loadTokens_ok h
  obtain ⟨tok', hcur', -, hahead⟩ := hs.cur
  obtain rfl : tok' = tok := Option.some.inj (hcur'.symm.trans hcur)
  have hready := hs.ready
  have htail : s.advance.lookahead.drop s.advance.index = s.ahead.tail ∧ s.advance.index ≤ s.advance.lookahead.length := by
    unfold PState.advance
    split
    · refine ⟨?_, Nat.le_refl _⟩
      rw [PState.ahead, List.tail_drop, List.drop_nil, List.drop_eq_nil_of_le (by omega)]
    · refine ⟨?_, hready⟩
      rw [PState.ahead, List.tail_drop]
  have hrest : s.advance.data = s.data ∧ s.advance.code = s.code ∧ s.advance.lexer = s.lexer ∧ s.advance.mark = s.mark ∧
      ∀ t ∈ s.advance.lookahead, t.Shape := by
    unfold PState.advance
    split
    · exact ⟨rfl, rfl, rfl, rfl, by simp⟩
    · exact ⟨rfl, rfl, rfl, rfl, hs.lookahead⟩
  obtain ⟨hdata, hcode, hlexer, hmark, hlook⟩ := hrest
  refine ⟨⟨⟨us, hlexer ▸ hlex, ?_⟩, ⟨?_, hmark.trans hs.mark, ?_, ?_, ?_, ?_⟩, ?_, hcode⟩, hdata⟩
  · rw [hahead]
    simp only [PState.ahead] at htail ⊢
    rw [List.drop_append_of_le_length htail.2, htail.1, List.cons_append, List.singleton_append]
  · simp only [List.length_append, hlen]
    omega
  · intro t ht
    rcases List.mem_append.mp ht with ht | ht
    · exact hlook t ht
    · exact hshape t ht
  · intro t ht
    simp only [hts, hlexer] at ht
    rcases List.mem_append.mp ht with ht | ht
    · exact hs.tokenList t ht
    · exact hs' t ht
  · simp only [hdata]
    exact hs.first
  · simp only [hdata]
    exact hs.pooled
  · simp only [hdata]
    exact List.prefix_rfl

/-- `match` reads a token of the type. -/
theorem matchType_reads {s s' : PState} {type : Ty} {u : Unit} (h : matchType type s = .ok u s') (hs : s.Wf) :
    ∃ tok, s.cur = some tok ∧ tok.Shape ∧ tok.type = type ∧ Reads s [tok] s' ∧ s'.data = s.data := by
  obtain ⟨found, s1, hfound, h⟩ := bind_ok.mp h
  obtain ⟨rfl, tok, hcur, hshape, rfl⟩ := getLookaheadType_zero hfound hs
  by_cases hne : tok.type ≠ type
  · rw [if_pos hne] at h
    obtain ⟨_, _, hx, -⟩ := bind_ok.mp h
    cases throw_ok.mp hx
  · rw [if_neg hne] at h
    exact ⟨tok, hcur, hshape, not_not.mp hne, consume_reads h hs hcur⟩

/-! ### Speculation -/

section Runs

variable {α β : Type} {s s' : PState}

theorem bind_of_ok {x : P α} {f : α → P β} {a : α} (h : x s = .ok a s') : (x >>= f) s = f a s' := by
  show EStateM.bind x f s = _
  rw [EStateM.bind, h]

theorem bind_of_error {x : P α} {f : α → P β} {e : Err} (h : x s = .error e s') : (x >>= f) s = .error e s' := by
  show EStateM.bind x f s = _
  rw [EStateM.bind, h]

theorem get_run (s : PState) : (get : P PState) s = .ok s s := rfl

theorem modify_run (f : PState → PState) (s : PState) : (modify f : P PUnit) s = .ok ⟨⟩ (f s) := rfl

end Runs

theorem loadLookahead_loaded {i : ℕ} {s : PState} (h : s.index + i ≤ s.lookahead.length) : loadLookahead i s = .ok () s := by
  rw [loadLookahead, bind_of_ok (get_run s), Nat.sub_eq_zero_of_le h]
  rfl

theorem getLookaheadType_loaded {s : PState} {tok : Token} (h : s.cur = some tok) : getLookaheadType 0 s = .ok tok.type s := by
  have hlt : s.index < s.lookahead.length := (List.getElem?_eq_some_iff.mp h).1
  have htok : getLookaheadToken 0 s = .ok tok s := by
    rw [getLookaheadToken, bind_of_ok (loadLookahead_loaded hlt.le), bind_of_ok (get_run s)]
    simp only [Nat.add_zero]
    rw [show s.lookahead[s.index]? = some tok from h]
    rfl
  show EStateM.map _ _ s = _
  rw [EStateM.map, htok]

/-- With enough tokens loaded, `match` under speculation moves the index only. -/
theorem matchAll_loaded (list : List Ty) (s : PState) (hm : s.mark ≠ none) (h : s.index + list.length < s.lookahead.length) :
    if (s.ahead.take list.length).map Token.type = list then matchAll list s = .ok () { s with index := s.index + list.length }
    else ∃ e k, matchAll list s = .error e { s with index := k } := by
  induction list generalizing s with
  | nil =>
    rw [if_pos (by simp)]
    rfl
  | cons type list ih =>
    rw [List.length_cons] at h
    obtain ⟨tok, hcur⟩ : ∃ tok, s.cur = some tok := ⟨_, List.getElem?_eq_getElem (by omega)⟩
    have hahead : s.ahead = tok :: s.lookahead.drop (s.index + 1) := by
      rw [PState.ahead, List.drop_eq_getElem_cons (by omega), (List.getElem?_eq_some_iff.mp hcur).2]
    have hconsume : consume s = .ok () { s with index := s.index + 1 } := by
      have hadv : s.advance = { s with index := s.index + 1 } := by
        rw [PState.advance, if_neg fun hh => hm hh.1]
      rw [consume, bind_of_ok (modify_run ..), hadv]
      exact loadLookahead_loaded (by simp only; omega)
    have hmatch : matchType type s = if tok.type = type then .ok () { s with index := s.index + 1 } else .error .token s := by
      rw [matchType, bind_of_ok (getLookaheadType_loaded hcur)]
      by_cases ht : tok.type = type
      · rw [if_pos ht, if_neg (not_not.mpr ht)]
        exact hconsume
      · rw [if_neg ht, if_pos ht]
        rfl
    rw [hahead, List.length_cons, List.take_succ_cons, List.map_cons]
    by_cases ht : tok.type = type
    · rw [if_pos ht] at hmatch
      have := ih { s with index := s.index + 1 } hm (by simp only; omega)
      rw [show ({ s with index := s.index + 1 } : PState).ahead = s.lookahead.drop (s.index + 1) from rfl] at this
      rw [matchAll, bind_of_ok hmatch, ht]
      simp only [List.cons.injEq, true_and]
      split at this
      · rw [if_pos ‹_›, this, Nat.add_assoc, Nat.add_comm 1]
      · rw [if_neg ‹_›]
        exact this
    · rw [if_neg ht] at hmatch
      rw [matchAll, bind_of_error hmatch, if_neg fun e => ht (List.cons.inj e).1]
      exact ⟨.token, s.index, rfl⟩

/-- With enough tokens loaded, speculation changes nothing. -/
theorem speculateList_loaded {list : List Ty} {s : PState} (hm : s.mark = none) (h : s.index + list.length < s.lookahead.length) :
    speculateList list s = .ok (decide ((s.ahead.take list.length).map Token.type = list)) s := by
  have hs : ∀ k, ({ ({ { s with mark := some s.index } with index := k } : PState) with index := s.index, mark := none } : PState) = s := by
    intro k
    cases s
    cases hm
    rfl
  have := matchAll_loaded list { s with mark := some s.index } (by simp) h
  rw [show ({ s with mark := some s.index } : PState).ahead = s.ahead from rfl] at this
  split at this
  · rw [speculateList, this, decide_eq_true ‹_›]
    exact congrArg _ (hs _)
  · obtain ⟨e, k, this⟩ := this
    rw [speculateList, this, decide_eq_false ‹_›]
    exact congrArg _ (hs _)

/-! ### Data records -/

theorem findData_append {data : List Token} {text : Text} {i : ℕ} (h : findData data text = some i) (more : List Token) :
    findData (data ++ more) text = some i := by
  rw [findData, List.findIdx?_append, ← findData, h]
  rfl

theorem findData_new {data : List Token} {tok : Token} (h : findData data tok.text = none) (more : List Token) :
    findData (data ++ [tok] ++ more) tok.text = some data.length := by
  refine findData_append ?_ more
  rw [findData, List.findIdx?_append, ← findData, h]
  simp [List.findIdx?_cons]

/-- The record found has the text. -/
theorem findData_text {data : List Token} {text : Text} {i : ℕ} (h : findData data text = some i) :
    ∃ r, data[i]? = some r ∧ r ∈ data ∧ r.text = text := by
  obtain ⟨hlt, hp, -⟩ := List.findIdx?_eq_some_iff_getElem.mp h
  exact ⟨data[i], List.getElem?_eq_getElem hlt, List.getElem_mem hlt, by simpa using hp⟩

/-- The record of a token. -/
def HasRecord (data : List Token) (tok : Token) : Prop := (findData data tok.text).isSome = true

theorem HasRecord.mono {data d : List Token} {tok : Token} (h : HasRecord data tok) (hd : data <+: d) : HasRecord d tok := by
  obtain ⟨more, rfl⟩ := hd
  obtain ⟨i, hi⟩ := Option.isSome_iff_exists.mp h
  rw [HasRecord, findData_append hi]
  rfl

/-- The line that pushes a text, once the text has a record. -/
def refer (data : List Token) (tok : Token) : Line := .pusho (findData data tok.text) tok

/-- If a token is matched, it is of the type, whatever else holds. -/
theorem matchType_type {s s' : PState} {type : Ty} {u : Unit} {tok : Token} (h : matchType type s = .ok u s') (hcur : s.cur = some tok) :
    tok.type = type := by
  rw [matchType, bind_of_ok (getLookaheadType_loaded hcur)] at h
  by_contra hne
  rw [if_pos hne] at h
  obtain ⟨_, _, hx, -⟩ := bind_ok.mp h
  cases throw_ok.mp hx

/-- A record more. -/
theorem PState.Wf.push {s : PState} (hs : s.Wf) {r : Token} (hr : r.Pooled) : ({ s with data := s.data ++ [r] } : PState).Wf where
  ready := hs.ready
  mark := hs.mark
  lookahead := hs.lookahead
  tokenList := hs.tokenList
  first := by
    rw [List.getElem?_append_left (List.getElem?_eq_some_iff.mp hs.first).1]
    exact hs.first
  pooled := by
    intro r' h
    rcases List.mem_append.mp h with h | h
    · exact hs.pooled r' h
    · exact List.mem_singleton.mp h ▸ hr

theorem Reads.push {s : PState} (hs : s.Wf) {r : Token} (hr : r.Pooled) : Reads s [] { s with data := s.data ++ [r] } :=
  ⟨⟨[], .nil _, List.append_nil _⟩, hs.push hr, List.prefix_append .., rfl⟩

/-- `data` reads a token and pushes its record. -/
theorem pushData_reads {s s' : PState} {type : Ty} {line : Line} (h : pushData type s = .ok line s') (hs : s.Wf)
    (ht : type ∈ [Ty.float, .int, .name, .varchar, .asterisk]) :
    ∃ tok, s.cur = some tok ∧ tok.Shape ∧ tok.type = type ∧ Reads s [tok] s' ∧ HasRecord s'.data tok ∧
      ∀ d, s'.data <+: d → line = refer d tok := by
  obtain ⟨tok, s1, htok, hrest⟩ := bind_ok.mp h
  clear h
  obtain ⟨rfl, hcur, hshape⟩ := getLookaheadToken_zero htok hs
  rw [bind_of_ok (get_run _)] at hrest
  cases hf : findData s1.data tok.text with
  | some i =>
    rw [hf] at hrest
    simp only [reduceCtorEq, if_false, Option.getD_some] at hrest
    obtain ⟨_, s2, hm, hline⟩ := bind_ok.mp hrest
    obtain ⟨rfl, rfl⟩ := pure_ok.mp hline
    obtain ⟨tok', hcur', -, htype, hreads, hdata⟩ := matchType_reads hm hs
    obtain rfl := Option.some.inj (hcur'.symm.trans hcur)
    refine ⟨tok', hcur, hshape, htype, hreads, by rw [HasRecord, hdata, hf]; rfl, ?_⟩
    rintro d ⟨more, rfl⟩
    rw [refer, hdata, findData_append hf]
  | none =>
    rw [hf] at hrest
    simp only [if_true, Option.getD_none] at hrest
    obtain ⟨_, s2, hset, hrest⟩ := bind_ok.mp hrest
    obtain rfl := set_ok.mp hset
    obtain ⟨_, s3, hm, hline⟩ := bind_ok.mp hrest
    obtain ⟨rfl, rfl⟩ := pure_ok.mp hline
    -- the record has been added before the token is matched
    have htype : tok.type = type := matchType_type hm hcur
    have hpool : tok.Pooled := .token hshape (htype ▸ ht)
    obtain ⟨tok', hcur', -, -, hreads, hdata⟩ := matchType_reads hm (hs.push hpool)
    obtain rfl := Option.some.inj (hcur'.symm.trans hcur)
    have hrec := findData_new hf []
    rw [List.append_nil] at hrec
    refine ⟨tok', hcur, hshape, htype, (Reads.push hs hpool).trans hreads, by rw [HasRecord, hdata, hrec]; rfl, ?_⟩
    rintro d ⟨more, rfl⟩
    rw [refer, hdata, findData_new hf]

/-- `data` of a text pushes its record. -/
theorem pushText_reads {s s' : PState} {text : Text} {line : Line} (h : pushText text s = .ok line s') (hs : s.Wf)
    (hp : Token.Pooled ⟨.varchar, text⟩) :
    Reads s [] s' ∧ HasRecord s'.data ⟨.varchar, text⟩ ∧ ∀ d, s'.data <+: d → line = refer d ⟨.varchar, text⟩ := by
  rw [pushText, bind_of_ok (get_run _)] at h
  cases hf : findData s.data text with
  | some i =>
    rw [hf] at h
    simp only [reduceCtorEq, if_false, Option.getD_some] at h
    obtain ⟨rfl, rfl⟩ := pure_ok.mp h
    refine ⟨.refl hs, by rw [HasRecord, hf]; rfl, ?_⟩
    rintro d ⟨more, rfl⟩
    rw [refer, findData_append hf]
  | none =>
    rw [hf] at h
    simp only [if_true, Option.getD_none] at h
    obtain ⟨_, s2, hset, hline⟩ := bind_ok.mp h
    obtain rfl := set_ok.mp hset
    obtain ⟨rfl, rfl⟩ := pure_ok.mp hline
    have hrec := @findData_new _ ⟨.varchar, text⟩ hf []
    rw [List.append_nil] at hrec
    refine ⟨.push hs hp, by rw [HasRecord, hrec]; rfl, ?_⟩
    rintro d ⟨more, rfl⟩
    rw [refer, @findData_new _ ⟨.varchar, text⟩ hf]

/-- The empty text is the first record. -/
theorem findData_empty {data : List Token} (h : data[0]? = some ⟨.schemaVarchar, empty⟩) : findData data empty = some 0 := by
  cases data with
  | nil => cases h
  | cons r data =>
    obtain rfl : r = ⟨.schemaVarchar, empty⟩ := by simpa using h
    simp [findData, List.findIdx?_cons]

theorem pushEmpty_reads {s s' : PState} {line : Line} (h : pushEmpty s = .ok line s') (hs : s.Wf) :
    s' = s ∧ line = .pusho (some 0) ⟨.varchar, empty⟩ := by
  rw [pushEmpty, bind_of_ok (get_run _)] at h
  obtain ⟨rfl, rfl⟩ := pure_ok.mp h
  rw [findData_empty hs.first]
  exact ⟨rfl, rfl⟩

end RedB.Tran
