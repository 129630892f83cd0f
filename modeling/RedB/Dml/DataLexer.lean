import RedB.Dml.OrderBy

/-!
# The lines of LOAD DATA

`data_lexer` reads quoted texts and numbers and skips commas and white space between them. A number
ends in front of anything that is no digit, and where there is no digit at all it is empty and nothing
is read: what follows is never reached, and the line is refused.

A line that `SELECT .. INTO OUTFILE` has written is read as its quoted values, each as it is, and as
the numbers that its other values are made of (`getData_pieces`). A value that is one number is read
as it is (`getData_rowText`).
-/

namespace RedB.Dml

/-! ### The lexer -/

/-- `data_lexer::EOI` -/
def EOI : Char := Char.ofNat 255

/-- `data_lexer::number`: the token and the input behind it. -/
def number (input : Text) : Text × Text :=
  let value := input.takeWhile Char.isDigit
  match input.dropWhile Char.isDigit with
  | '.' :: rest => (value ++ '.' :: rest.takeWhile Char.isDigit, rest.dropWhile Char.isDigit)
  | rest => (value, rest)

/-- The quotes. -/
def isQuote (c : Char) : Bool := c = '"' || c = '\x27'

/-- `data_lexer::varchar`, behind its first quote; nothing if it throws. -/
def varchar (delim : Char) (input : Text) : Option (Text × Text) :=
  let inside := fun c => !isQuote c && c ≠ EOI
  match input.dropWhile inside with
  | c :: rest => if c = delim then some (input.takeWhile inside, rest) else none
  | [] => none

/-- `data_lexer::next_token`: the token and the input behind it, `some none` at the end, nothing if it
throws. The loop of `data_lexer::ws` skips all white space. -/
def nextToken (ws : Bool) : Text → Option (Option (Text × Text))
  | [] => some none
  | c :: cs =>
      if ws ∧ isSpace c then nextToken true cs
      else if c = EOI then some none
      else if c = ' ' ∨ c = '\t' then nextToken true cs
      else if isQuote c then (varchar c cs).map some
      else if c = ',' then nextToken false cs
      else some (some (number (c :: cs)))

/-- `vm::get_data`: the values of a line, for `n` columns. -/
def getData : ℕ → Text → Option (List Text)
  | 0, line =>
      match nextToken false line with
      | some none => some []
      | _ => none
  | n + 1, line =>
      match nextToken false line with
      | some (some (value, rest)) => (getData n rest).map (value :: ·)
      | _ => none

/-! ### Values and what they are read as -/

/-- A number for the lexer: digits, with a point at most. -/
def Plain (value : Text) : Prop := value ≠ [] ∧ (∀ c ∈ value, c.isDigit = true ∨ c = '.') ∧ value.count '.' ≤ 1

instance (value : Text) : Decidable (Plain value) := inferInstanceAs (Decidable (_ ∧ _ ∧ _))

/-- A text that may be read as more than one number, or without some of its characters. -/
def splits (value : Text) : Bool := value.any (fun c => isSpace c || c = ',') || decide (2 ≤ value.count '.')

/-- A text without quotes and without ends of lines and of the input. -/
def Clean (value : Text) : Prop := ∀ c ∈ value, isQuote c = false ∧ c ≠ '\n' ∧ c ≠ EOI

instance (value : Text) : Decidable (Clean value) := inferInstanceAs (Decidable (∀ c ∈ value, _))

/-- What the cells of a line are read as. -/
inductive Pieces : List Cell → List Text → Prop where
  | nil : Pieces [] []
  /-- A quoted text. -/
  | quoted {value : Text} {cells : List Cell} {values : List Text} (h : Pieces cells values) : Pieces (⟨true, value⟩ :: cells) (value :: values)
  /-- The numbers of another text. -/
  | bare {value : Text} {numbers : List Text} {cells : List Cell} {values : List Text} (hn : ∀ t ∈ numbers, Plain t)
      (hv : splits value = false → numbers = [value] ∨ value = [] ∧ numbers = []) (h : Pieces cells values) :
      Pieces (⟨false, value⟩ :: cells) (numbers ++ values)

/-- The values that follow in a line: there are none, or a comma stands in front of them. -/
def Behind (tail : Text) : Prop := tail = [] ∨ ∃ rest, tail = ',' :: rest

/-! ### Tokens -/

variable {tail value : Text} {values : List Text}

theorem isSpace_comma : isSpace ',' = false := rfl

/-- White space in front of a comma or of the end does not matter. -/
theorem Behind.nextToken (h : Behind tail) (ws : Bool) : nextToken ws tail = nextToken false tail := by
  rcases h with rfl | ⟨rest, rfl⟩
  · rfl
  · rw [Dml.nextToken, Dml.nextToken, isSpace_comma]
    simp only [Bool.false_eq_true, and_false, if_false]

theorem Behind.takeWhile (h : Behind tail) : tail.takeWhile Char.isDigit = [] := by
  rcases h with rfl | ⟨rest, rfl⟩
  · rfl
  · rfl

theorem Behind.dropWhile (h : Behind tail) : tail.dropWhile Char.isDigit = tail := by
  rcases h with rfl | ⟨rest, rfl⟩
  · rfl
  · rfl

theorem Behind.takeWhile_append (h : Behind tail) (value : Text) :
    (value ++ tail).takeWhile Char.isDigit = value.takeWhile Char.isDigit := by
  induction value with
  | nil => exact h.takeWhile
  | cons c cs ih =>
    rw [List.cons_append, List.takeWhile_cons, List.takeWhile_cons, ih]

theorem Behind.dropWhile_append (h : Behind tail) (value : Text) :
    (value ++ tail).dropWhile Char.isDigit = value.dropWhile Char.isDigit ++ tail := by
  induction value with
  | nil => exact h.dropWhile
  | cons c cs ih =>
    rw [List.cons_append, List.dropWhile_cons, List.dropWhile_cons, ih]
    split
    · rfl
    · rfl

/-- A number does not reach beyond its value. -/
theorem Behind.number (h : Behind tail) (value : Text) : number (value ++ tail) = ((number value).1, (number value).2 ++ tail) := by
  rw [Dml.number, Dml.number, h.takeWhile_append, h.dropWhile_append]
  cases value.dropWhile Char.isDigit with
  | nil =>
    rcases h with rfl | ⟨rest, rfl⟩
    · rfl
    · rfl
  | cons c cs =>
    by_cases hc : c = '.'
    · subst hc
      simp only [List.cons_append, h.takeWhile_append, h.dropWhile_append]
    · have hmatch : ∀ l : Text, (match c :: l with
          | '.' :: rest => (value.takeWhile Char.isDigit ++ '.' :: rest.takeWhile Char.isDigit, rest.dropWhile Char.isDigit)
          | rest => (value.takeWhile Char.isDigit, rest)) = (value.takeWhile Char.isDigit, c :: l) := by
        intro l
        split
        · rename_i heq
          exact absurd (List.cons.inj heq).1 hc
        · rfl
      rw [List.cons_append, hmatch, hmatch]
      rfl

theorem count_digits {l : Text} (h : ∀ c ∈ l, c.isDigit = true) : l.count '.' = 0 := by
  apply List.count_eq_zero_of_not_mem
  intro hmem
  exact absurd (h _ hmem) (by decide)

theorem mem_takeWhile_digits {c : Char} {l : Text} (h : c ∈ l.takeWhile Char.isDigit) : c.isDigit = true :=
  List.mem_takeWhile_imp h

/-- A number that is not empty is plain. -/
theorem plain_number (h : (number value).1 ≠ []) : Plain (number value).1 := by
  refine ⟨h, ?_, ?_⟩
  · intro c hc
    rw [number] at hc
    split at hc
    · rcases List.mem_append.mp hc with hc | hc
      · exact Or.inl (mem_takeWhile_digits hc)
      · rcases List.mem_cons.mp hc with rfl | hc
        · exact Or.inr rfl
        · exact Or.inl (mem_takeWhile_digits hc)
    · exact Or.inl (mem_takeWhile_digits hc)
  · rw [number]
    split
    · rw [List.count_append, List.count_cons, count_digits fun c hc => mem_takeWhile_digits hc, count_digits fun c hc => mem_takeWhile_digits hc]
      decide
    · rw [count_digits fun c hc => mem_takeWhile_digits hc]
      decide

/-- The input is the number and what is behind it. -/
theorem number_append (value : Text) : (number value).1 ++ (number value).2 = value := by
  rw [number]
  split
  · rename_i rest hrest
    dsimp only
    rw [List.append_assoc, List.cons_append, List.takeWhile_append_dropWhile, ← hrest, List.takeWhile_append_dropWhile]
  · rename_i hrest
    exact List.takeWhile_append_dropWhile

/-- A plain text is one number. -/
theorem number_plain (h : Plain value) : number value = (value, []) := by
  obtain ⟨-, hall, hcount⟩ := h
  have hsplit := List.takeWhile_append_dropWhile (p := Char.isDigit) (l := value)
  rw [number]
  cases hrest : value.dropWhile Char.isDigit with
  | nil =>
    rw [hrest, List.append_nil] at hsplit
    dsimp only
    rw [hsplit]
  | cons c cs =>
    have hc : c.isDigit = false := by
      have hne : value.dropWhile Char.isDigit ≠ [] := hrest ▸ List.cons_ne_nil _ _
      have := List.head_dropWhile_not Char.isDigit hne
      simpa only [hrest, List.head_cons] using this
    have hmem : c ∈ value := by
      rw [← hsplit, hrest]
      exact List.mem_append_right _ List.mem_cons_self
    obtain rfl : c = '.' := (hall c hmem).resolve_left (by rw [hc]; decide)
    have hcs : ∀ d ∈ cs, d.isDigit = true := by
      intro d hd
      rw [← hsplit, hrest, List.count_append, List.count_cons_self] at hcount
      have hdot : d ≠ '.' := by
        rintro rfl
        have := List.count_pos_iff.mpr hd
        omega
      have hdv : d ∈ value := by
        rw [← hsplit, hrest]
        exact List.mem_append_right _ (List.mem_cons_of_mem _ hd)
      exact (hall d hdv).resolve_right hdot
    have htake : cs.takeWhile Char.isDigit = cs := takeWhile_digits hcs
    have hdrop : cs.dropWhile Char.isDigit = [] := List.dropWhile_eq_nil_iff.mpr hcs
    show (value.takeWhile Char.isDigit ++ '.' :: cs.takeWhile Char.isDigit, cs.dropWhile Char.isDigit) = (value, [])
    rw [htake, hdrop, ← hrest, hsplit]

theorem splits_eq_false : splits value = false ↔ (∀ c ∈ value, isSpace c = false ∧ c ≠ ',') ∧ value.count '.' ≤ 1 := by
  rw [splits, Bool.or_eq_false_iff, List.any_eq_false, decide_eq_false_iff_not, not_le, Nat.lt_succ_iff]
  refine and_congr_left fun _ => forall₂_congr fun c _ => ?_
  rw [Bool.not_eq_true, Bool.or_eq_false_iff, decide_eq_false_iff_not]

theorem splits_append_right {value' : Text} (h : splits (value ++ value') = false) : splits value' = false := by
  obtain ⟨hall, hcount⟩ := splits_eq_false.mp h
  rw [List.count_append] at hcount
  exact splits_eq_false.mpr ⟨fun c hc => hall c (List.mem_append_right _ hc), by omega⟩

theorem Plain.splits (h : Plain value) : splits value = false := by
  refine splits_eq_false.mpr ⟨fun c hc => ?_, h.2.2⟩
  rcases h.2.1 c hc with hd | rfl
  · refine ⟨isSpace_of_isDigit hd, ?_⟩
    rintro rfl
    exact absurd hd (by decide)
  · exact ⟨rfl, by decide⟩

/-- A text that does not split is its first number, if what is behind that is a number, or nothing. -/
theorem number_of_not_splits (hne : (number value).1 ≠ []) (hs : splits value = false)
    (h : Plain (number value).2 ∨ (number value).2 = []) : (number value).1 = value ∧ (number value).2 = [] := by
  have happ := number_append value
  rcases h with hrest | hrest
  · have hplain : Plain value := by
      refine ⟨?_, fun c hc => ?_, (splits_eq_false.mp hs).2⟩
      · rintro rfl
        exact hne rfl
      · rw [← happ] at hc
        exact (List.mem_append.mp hc).elim ((plain_number hne).2.1 c) (hrest.2.1 c)
    rw [number_plain hplain] at hrest
    exact absurd rfl hrest.1
  · rw [hrest, List.append_nil] at happ
    exact ⟨happ, hrest⟩

/-! ### The values of a line -/

/-- `vm::get_data`, from within white space. -/
def valuesFrom (ws : Bool) : ℕ → Text → Option (List Text)
  | 0, line =>
      match nextToken ws line with
      | some none => some []
      | _ => none
  | n + 1, line =>
      match nextToken ws line with
      | some (some (value, rest)) => (getData n rest).map (value :: ·)
      | _ => none

theorem getData_eq (n : ℕ) (line : Text) : getData n line = valuesFrom false n line := by
  cases n with
  | zero => rfl
  | succ n => rfl

theorem valuesFrom_congr {ws ws' : Bool} {line line' : Text} (h : nextToken ws line = nextToken ws' line') (n : ℕ) :
    valuesFrom ws n line = valuesFrom ws' n line' := by
  cases n with
  | zero => rw [valuesFrom, valuesFrom, h]
  | succ n => rw [valuesFrom, valuesFrom, h]

/-- The first token of a line. -/
theorem valuesFrom_token {ws : Bool} {n : ℕ} {line rest : Text} (h : nextToken ws line = some (some (value, rest)))
    (hv : valuesFrom ws n line = some values) :
    ∃ m vs, n = m + 1 ∧ values = value :: vs ∧ getData m rest = some vs := by
  cases n with
  | zero =>
    rw [valuesFrom, h] at hv
    cases hv
  | succ m =>
    rw [valuesFrom, h] at hv
    obtain ⟨vs, hvs, rfl⟩ := Option.map_eq_some_iff.mp hv
    exact ⟨m, vs, rfl, rfl, hvs⟩

/-- Where the lexer does not get on, no line is read. -/
theorem getData_stuck {line : Text} (h : nextToken false line = some (some ([], line))) (n : ℕ) : getData n line = none := by
  induction n with
  | zero => rw [getData, h]
  | succ n ih =>
    rw [getData, h]
    exact congrArg (Option.map _) ih

theorem length_getData {n : ℕ} {line : Text} (h : getData n line = some values) : values.length = n := by
  induction n generalizing line values with
  | zero =>
    rw [getData] at h
    split at h
    · cases h
      rfl
    · cases h
  | succ n ih =>
    rw [getData] at h
    split at h
    · obtain ⟨vs, hvs, rfl⟩ := Option.map_eq_some_iff.mp h
      rw [List.length_cons, ih hvs]
    · cases h

/-- What an unquoted text is read as, if its line is read at all. -/
theorem valuesFrom_bare (ht : Behind tail) (hc : Clean value) {ws : Bool} {n : ℕ} (h : valuesFrom ws n (value ++ tail) = some values) :
    ∃ numbers m vs, n = numbers.length + m ∧ values = numbers ++ vs ∧ getData m tail = some vs ∧ (∀ t ∈ numbers, Plain t) ∧
      (splits value = false → numbers = [value] ∨ value = [] ∧ numbers = []) := by
  induction hlen : value.length using Nat.strong_induction_on generalizing value ws n values with
  | _ k ih =>
    cases value with
    | nil =>
      rw [List.nil_append, valuesFrom_congr (ht.nextToken ws), ← getData_eq] at h
      exact ⟨[], n, values, (Nat.zero_add n).symm, rfl, h, by simp, fun _ => Or.inr ⟨rfl, rfl⟩⟩
    | cons c cs =>
      obtain ⟨hquote, -, heoi⟩ := hc c List.mem_cons_self
      have hcs : Clean cs := fun d hd => hc d (List.mem_cons_of_mem _ hd)
      -- behind what is skipped
      have hskip : ∀ {ws'}, nextToken ws (c :: cs ++ tail) = nextToken ws' (cs ++ tail) → (isSpace c || c = ',') = true →
          ∃ numbers m vs, n = numbers.length + m ∧ values = numbers ++ vs ∧ getData m tail = some vs ∧ (∀ t ∈ numbers, Plain t) ∧
            (splits (c :: cs) = false → numbers = [c :: cs] ∨ c :: cs = [] ∧ numbers = []) := by
        intro ws' hnext hsep
        rw [valuesFrom_congr hnext] at h
        obtain ⟨numbers, m, vs, hn, hv, hrest, hplain, -⟩ := ih cs.length (by rw [← hlen]; exact Nat.lt_succ_self _) hcs h rfl
        refine ⟨numbers, m, vs, hn, hv, hrest, hplain, fun hs => ?_⟩
        rw [splits, List.any_cons, hsep, Bool.true_or, Bool.true_or] at hs
        cases hs
      by_cases hws : ws = true ∧ isSpace c = true
      · exact @hskip true (by rw [List.cons_append, nextToken, if_pos hws]) (by rw [hws.2, Bool.true_or])
      by_cases hblank : c = ' ' ∨ c = '\t'
      · refine @hskip true (by rw [List.cons_append, nextToken, if_neg hws, if_neg heoi, if_pos hblank]) ?_
        rcases hblank with rfl | rfl
        · rfl
        · rfl
      by_cases hcomma : c = ','
      · subst hcomma
        exact @hskip false (by rw [List.cons_append, nextToken, if_neg hws, if_neg heoi, if_neg hblank]; rfl) rfl
      -- a number
      have hnext : nextToken ws (c :: cs ++ tail) = some (some ((number (c :: cs)).1, (number (c :: cs)).2 ++ tail)) := by
        rw [List.cons_append, nextToken, if_neg hws, if_neg heoi, if_neg hblank, if_neg (by rw [hquote]; decide), if_neg hcomma,
          ← List.cons_append, ht.number]
      obtain ⟨m, vs, rfl, rfl, hrest⟩ := valuesFrom_token hnext h
      by_cases hempty : (number (c :: cs)).1 = []
      · have happ := number_append (c :: cs)
        rw [hempty, List.nil_append] at happ
        have hstuck : nextToken false (c :: cs ++ tail) = some (some ([], c :: cs ++ tail)) := by
          rw [List.cons_append, nextToken, if_neg (by simp), if_neg heoi, if_neg hblank, if_neg (by rw [hquote]; decide), if_neg hcomma,
            ← List.cons_append, ht.number, hempty, happ]
        rw [happ, getData_stuck hstuck] at hrest
        cases hrest
      · have happ := number_append (c :: cs)
        have hlt : (number (c :: cs)).2.length < k := by
          have := congrArg List.length happ
          rw [List.length_append, hlen] at this
          have := List.length_pos_of_ne_nil hempty
          omega
        have hclean : Clean (number (c :: cs)).2 := fun d hd => hc d (by rw [← happ]; exact List.mem_append_right _ hd)
        rw [getData_eq] at hrest
        obtain ⟨numbers, m', vs', hn, rfl, hrest', hplain, hpart⟩ := ih _ hlt hclean hrest rfl
        refine ⟨(number (c :: cs)).1 :: numbers, m', vs', by rw [hn, List.length_cons]; omega, rfl, hrest', ?_, fun hs => Or.inl ?_⟩
        · exact List.forall_mem_cons.mpr ⟨plain_number hempty, hplain⟩
        · have hparts := hpart (@splits_append_right ((number (c :: cs)).1) _ (by rw [happ]; exact hs))
          obtain ⟨hfirst, hbehind⟩ := number_of_not_splits hempty hs (hparts.imp (fun h => by
            rw [h] at hplain
            exact hplain _ (List.mem_singleton_self _)) fun h => h.1)
          rcases hparts with hnum | ⟨-, hnum⟩
          · rw [hnum, hbehind] at hplain
            exact absurd rfl (hplain _ (List.mem_singleton_self _)).1
          · rw [hfirst, hnum]

/-- A quoted text is read as it is. -/
theorem nextToken_quoted (hc : Clean value) (tail : Text) (ws : Bool) :
    nextToken ws ('"' :: value ++ ['"'] ++ tail) = some (some (value, tail)) := by
  have hinside : ∀ c ∈ value, (!isQuote c && decide (c ≠ EOI)) = true := by
    intro c hmem
    obtain ⟨hquote, -, heoi⟩ := hc c hmem
    rw [hquote, Bool.not_false, Bool.true_and]
    exact decide_eq_true heoi
  have hstop : (!isQuote '"' && decide ('"' ≠ EOI)) = false := rfl
  have hdrop : (value ++ '"' :: tail).dropWhile (fun c => !isQuote c && decide (c ≠ EOI)) = '"' :: tail := by
    rw [List.dropWhile_append_of_pos hinside, List.dropWhile_cons, hstop]
    rfl
  have htake : (value ++ '"' :: tail).takeWhile (fun c => !isQuote c && decide (c ≠ EOI)) = value := by
    rw [List.takeWhile_append_of_pos hinside, List.takeWhile_cons, hstop, if_neg (by decide), List.append_nil]
  rw [List.cons_append, List.cons_append, List.append_assoc, List.singleton_append, nextToken, if_neg (by rintro ⟨-, h⟩; cases h),
    if_neg (by decide), if_neg (by decide), if_pos (show isQuote '"' = true from rfl), varchar]
  simp only [hdrop, htake, if_pos]
  rfl

/-- The cells behind a cell. -/
theorem behind_rowText (i : ℕ) (cells : List Cell) : Behind (rowText true (i + 1) cells) := by
  cases cells with
  | nil => exact Or.inl rfl
  | cons cell cells => exact Or.inr ⟨_, rfl⟩

/-- The separator in front of a cell is skipped. -/
theorem valuesFrom_rowText (i n : ℕ) (cell : Cell) (cells : List Cell) :
    ∃ ws, getData n (rowText true i (cell :: cells)) =
      valuesFrom ws n ((if cell.quote then '"' :: cell.text ++ ['"'] else cell.text) ++ rowText true (i + 1) cells) := by
  rw [rowText, getData_eq]
  cases i with
  | zero => exact ⟨false, rfl⟩
  | succ i =>
    refine ⟨true, valuesFrom_congr ?_ n⟩
    rfl

/-- A line that is read is read in pieces. -/
theorem getData_pieces {i n : ℕ} {cells : List Cell} (hc : ∀ cell ∈ cells, Clean cell.text)
    (h : getData n (rowText true i cells) = some values) : Pieces cells values := by
  induction cells generalizing i n values with
  | nil =>
    cases n with
    | zero =>
      obtain rfl := Option.some.inj h
      exact Pieces.nil
    | succ n => cases h
  | cons cell cells ih =>
    obtain ⟨ws, hfrom⟩ := valuesFrom_rowText i n cell cells
    rw [hfrom] at h
    have hcells : ∀ cell ∈ cells, Clean cell.text := fun c hm => hc c (List.mem_cons_of_mem _ hm)
    obtain ⟨quote, text⟩ := cell
    have hclean : Clean text := hc _ List.mem_cons_self
    cases quote with
    | true =>
      obtain ⟨m, vs, rfl, rfl, hrest⟩ := valuesFrom_token (nextToken_quoted hclean _ ws) h
      exact Pieces.quoted (ih hcells hrest)
    | false =>
      obtain ⟨numbers, m, vs, -, rfl, hrest, hplain, hpart⟩ := valuesFrom_bare (behind_rowText i cells) hclean h
      exact Pieces.bare hplain hpart (ih hcells hrest)

/-- A number is read as it is. -/
theorem nextToken_plain (h : Plain value) (ht : Behind tail) (ws : Bool) : nextToken ws (value ++ tail) = some (some (value, tail)) := by
  obtain ⟨c, cs, rfl⟩ := List.exists_cons_of_ne_nil h.1
  have hc : c.isDigit = true ∨ c = '.' := h.2.1 c List.mem_cons_self
  have hspace := (splits_eq_false.mp h.splits).1 c List.mem_cons_self
  have hne : ∀ d, (d.isDigit || d = '.') = false → c ≠ d := by
    rintro d hd rfl
    rw [Bool.or_eq_false_iff, decide_eq_false_iff_not] at hd
    rcases hc with hc | hc
    · rw [hc] at hd
      exact absurd hd.1 (by decide)
    · exact hd.2 hc
  have hquote : isQuote c = false := by
    rw [isQuote, Bool.or_eq_false_iff, decide_eq_false_iff_not, decide_eq_false_iff_not]
    exact ⟨hne _ (by decide), hne _ (by decide)⟩
  rw [List.cons_append, nextToken, if_neg (by rw [hspace.1]; rintro ⟨-, h⟩; cases h), if_neg (hne _ (by decide)),
    if_neg (not_or.mpr ⟨hne _ (by decide), hne _ (by decide)⟩), if_neg (by rw [hquote]; decide), if_neg hspace.2, ← List.cons_append,
    ht.number, number_plain h]
  rfl

/-- A line of quoted texts and numbers is read as it is. -/
theorem getData_rowText {cells : List Cell} (hc : ∀ cell ∈ cells, if cell.quote then Clean cell.text else Plain cell.text) (i : ℕ) :
    getData cells.length (rowText true i cells) = some (cells.map Cell.text) := by
  induction cells generalizing i with
  | nil => rfl
  | cons cell cells ih =>
    obtain ⟨ws, hfrom⟩ := valuesFrom_rowText i (cell :: cells).length cell cells
    have hcells := fun c hm => hc c (List.mem_cons_of_mem _ hm)
    have hcell := hc cell List.mem_cons_self
    have hnext : nextToken ws ((if cell.quote then '"' :: cell.text ++ ['"'] else cell.text) ++ rowText true (i + 1) cells) =
        some (some (cell.text, rowText true (i + 1) cells)) := by
      split at hcell
      · rename_i hq
        rw [if_pos hq]
        exact nextToken_quoted hcell _ ws
      · rename_i hq
        rw [if_neg hq]
        exact nextToken_plain hcell (behind_rowText i cells) ws
    rw [hfrom, List.length_cons, valuesFrom, hnext]
    show (getData cells.length _).map _ = _
    rw [ih hcells]
    rfl

/-! ### Texts that split -/

/-- The cells that are not quoted. -/
def bareCells (cells : List Cell) : List Cell := cells.filter fun cell => !cell.quote

theorem bareCells_quoted (value : Text) (cells : List Cell) : bareCells (⟨true, value⟩ :: cells) = bareCells cells := rfl

theorem bareCells_bare (value : Text) (cells : List Cell) : bareCells (⟨false, value⟩ :: cells) = ⟨false, value⟩ :: bareCells cells := rfl

/-- What is read splits where a quoted text does. -/
theorem Pieces.countP {cells : List Cell} (h : Pieces cells values) :
    values.countP splits + (bareCells cells).countP (fun cell => splits cell.text) = cells.countP fun cell => splits cell.text := by
  induction h with
  | nil => rfl
  | @quoted value cells values _ ih =>
    rw [bareCells_quoted, List.countP_cons, List.countP_cons, ← ih]
    dsimp only
    omega
  | @bare value numbers cells values hn _ _ ih =>
    have hnone : numbers.countP splits = 0 := by
      rw [List.countP_eq_zero]
      intro t ht
      rw [(hn t ht).splits]
      decide
    rw [bareCells_bare, List.countP_append, hnone, List.countP_cons, List.countP_cons, ← ih]
    omega

/-- There is at most one value for each cell where none of them splits; if there are as many, the values are
those of the cells. -/
theorem Pieces.eq_texts {cells : List Cell} (h : Pieces cells values)
    (hs : ∀ cell ∈ bareCells cells, splits cell.text = false) :
    values.length ≤ cells.length ∧ (values.length = cells.length →
      values = cells.map Cell.text ∧ ∀ cell ∈ bareCells cells, Plain cell.text) := by
  induction h with
  | nil => exact ⟨le_rfl, fun _ => ⟨rfl, by simp [bareCells]⟩⟩
  | @quoted value cells values _ ih =>
    rw [bareCells_quoted] at hs ⊢
    obtain ⟨hle, heq⟩ := ih hs
    refine ⟨Nat.succ_le_succ hle, fun hl => ?_⟩
    obtain ⟨hvalues, hplain⟩ := heq (Nat.succ.inj hl)
    exact ⟨by rw [hvalues]; rfl, hplain⟩
  | @bare value numbers cells values hn hv _ ih =>
    rw [bareCells_bare] at hs ⊢
    obtain ⟨hvalue, hcells⟩ := List.forall_mem_cons.mp hs
    obtain ⟨hle, heq⟩ := ih hcells
    rcases hv hvalue with rfl | ⟨rfl, rfl⟩
    · refine ⟨Nat.succ_le_succ hle, fun hl => ?_⟩
      obtain ⟨hvalues, hplain⟩ := heq (Nat.succ.inj hl)
      exact ⟨by rw [hvalues]; rfl, List.forall_mem_cons.mpr ⟨hn _ (List.mem_singleton_self _), hplain⟩⟩
    · rw [List.nil_append, List.length_cons]
      exact ⟨Nat.le_succ_of_le hle, fun hl => by omega⟩

end RedB.Dml
