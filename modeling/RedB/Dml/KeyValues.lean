import RedB.Dml.Again
import Mathlib.Data.List.DropRight

/-!
# Keys and values

A key is made of the values of the indexed columns, each filled up to the size of its column: numbers
with zeros, on the left, all others with blanks, on the right. So keys identify values up to the
fill, but for two things (`key_identifies_iff`). An absent value is filled up too: it is not
distinguished from a zero, or from blanks. And a number that is longer than its column is not
separated from what follows.
-/

namespace RedB.Dml

variable (A : Arith)

/-- A column of numbers. -/
def Column.isNumber (col : Column) : Bool := col.type = .float || col.type = .int

/-- A text without leading zeros. -/
def dropZeros (text : Text) : Text := text.dropWhile fun c => c = '0'

/-- A text without trailing blanks. -/
def dropBlanks (text : Text) : Text := text.rdropWhile fun c => c = ' '

/-- The same but for the fill of the column. -/
def Column.SameFilled (col : Column) (a b : Text) : Prop :=
  if col.isNumber = true then dropZeros a = dropZeros b else dropBlanks a = dropBlanks b

/-- The same value: leading zeros of numbers and trailing blanks of CHAR and VARCHAR are not significant. An absent
value, which is stored as the empty text, differs from every other one. -/
def Column.Agree (col : Column) (a b : Text) : Prop :=
  (a = [] ↔ b = []) ∧
    match col.type with
    | .float | .int => dropZeros a = dropZeros b
    | .char | .varchar => dropBlanks a = dropBlanks b
    | _ => a = b

/-- The columns of an index, with their values in two rows. -/
def indexed (cols : List Column) (names : List Text) (r s : Row) : List (Column × Text × Text) :=
  names.filterMap fun name =>
    (columnPos cols name).bind fun i => (cols[i]?).map fun col => (col, r.valueAt i, s.valueAt i)

/-- The values are the same but for their fill, in some column they are not the same value. -/
def Blurred (fields : List (Column × Text × Text)) : Prop :=
  (∀ f ∈ fields, f.1.SameFilled f.2.1 f.2.2) ∧ ∃ f ∈ fields, ¬ f.1.Agree f.2.1 f.2.2

/-- In some column a value is longer than its column and than the other one, and yet the filled values are the
same text one behind the other. That is what numbers that are longer than their columns may come to; if
none is, there is no such column. -/
def Shifted (fields : List (Column × Text × Text)) : Prop :=
  (∃ f ∈ fields, max f.1.size f.2.1.length ≠ max f.1.size f.2.2.length) ∧
    (fields.flatMap fun f => f.1.keyPart f.2.1) = fields.flatMap fun f => f.1.keyPart f.2.2

/-- A row of a table, live, whatever the counters were when it was made. -/
def Stored (cols : List Column) (r : Row) : Prop := ∃ cols', Counted cols' cols ∧ Live A cols' r

/-- A number is printed with `std::fixed` in one way but for zeros, and zero as one digit if it is all zeros. -/
structure PrintsOnce : Prop where
  inj : ∀ prec x y, dropZeros (A.fixed prec x) = dropZeros (A.fixed prec y) → A.fixed prec x = A.fixed prec y
  zero : ∀ prec x, dropZeros (A.fixed prec x) = [] → A.fixed prec x = ['0']

variable {A} {col : Column} {cols : List Column} {names : List Text} {a b : Text} {r s : Row}

/-! ### Fill -/

theorem dropWhile_replicate_append (n : ℕ) (c : Char) (text : Text) :
    (List.replicate n c ++ text).dropWhile (fun d => d = c) = text.dropWhile fun d => d = c :=
  List.dropWhile_append_of_pos fun _ hd => decide_eq_true (List.mem_replicate.mp hd).2

/-- A text is its fill and the rest. -/
theorem eq_replicate_append (c : Char) (text : Text) :
    ∃ k, text = List.replicate k c ++ text.dropWhile fun d => d = c := by
  induction text with
  | nil => exact ⟨0, rfl⟩
  | cons d text ih =>
    by_cases hd : d = c
    · obtain ⟨k, hk⟩ := ih
      refine ⟨k + 1, ?_⟩
      simp only [List.dropWhile_cons, hd, decide_true, if_true, List.replicate_succ, List.cons_append, ← hk]
    · refine ⟨0, ?_⟩
      simp only [List.dropWhile_cons, decide_eq_true_eq, hd, if_false, List.replicate_zero, List.nil_append]

theorem padLeft_eq_iff {n : ℕ} {c : Char} (ha : a.length ≤ n) (hb : b.length ≤ n) :
    padLeft n c a = padLeft n c b ↔ (a.dropWhile fun d => d = c) = b.dropWhile fun d => d = c := by
  constructor
  · intro h
    rw [← dropWhile_replicate_append (n - a.length) c a, ← dropWhile_replicate_append (n - b.length) c b]
    exact congrArg _ h
  · intro h
    obtain ⟨k, hk⟩ := eq_replicate_append c a
    obtain ⟨l, hl⟩ := eq_replicate_append c b
    rw [h] at hk
    generalize (b.dropWhile fun d => d = c) = t at hk hl
    subst hk hl
    rw [List.length_append, List.length_replicate] at ha hb
    simp only [padLeft, ← List.append_assoc, List.replicate_append_replicate, List.length_append, List.length_replicate]
    congr 2
    omega

theorem padRight_eq_padLeft (n : ℕ) (c : Char) (text : Text) : padRight n c text = (padLeft n c text.reverse).reverse := by
  rw [padRight, padLeft, List.reverse_append, List.reverse_reverse, List.reverse_replicate, List.length_reverse]

theorem padRight_eq_iff {n : ℕ} {c : Char} (ha : a.length ≤ n) (hb : b.length ≤ n) :
    padRight n c a = padRight n c b ↔ (a.rdropWhile fun d => d = c) = b.rdropWhile fun d => d = c := by
  rw [padRight_eq_padLeft, padRight_eq_padLeft, List.reverse_inj, padLeft_eq_iff (by rwa [List.length_reverse]) (by rwa [List.length_reverse]),
    List.rdropWhile, List.rdropWhile, List.reverse_inj]

/-! ### Numbers without zeros -/

theorem ofDigitChars_dropZeros (text : Text) : Nat.ofDigitChars 10 (dropZeros text) 0 = Nat.ofDigitChars 10 text 0 := by
  obtain ⟨k, hk⟩ := eq_replicate_append '0' text
  conv_rhs => rw [hk, Nat.ofDigitChars_append, Nat.ofDigitChars_replicate_zero, Nat.mul_zero]
  rfl

theorem dropZeros_toText_inj {n m : ℕ} (h : dropZeros (toText n) = dropZeros (toText m)) : n = m := by
  have hval : ∀ n, Nat.ofDigitChars 10 (dropZeros (toText n)) 0 = n := fun n => by
    rw [ofDigitChars_dropZeros, toText, Nat.ofDigitChars_ten_toDigits]
  rw [← hval n, ← hval m, h]

theorem dropZeros_neg (n : ℕ) : dropZeros (intToText (.negSucc n)) = intToText (.negSucc n) :=
  List.dropWhile_cons_of_neg (by decide)

theorem dropZeros_ne_minus (n : ℕ) (text : Text) : dropZeros (toText n) ≠ '-' :: text := by
  intro h
  have hmem : '-' ∈ toText n := (List.dropWhile_sublist _).subset (h ▸ List.mem_cons_self)
  exact absurd (toText_digits hmem) (by decide)

theorem dropZeros_intToText_inj {z w : ℤ} (h : dropZeros (intToText z) = dropZeros (intToText w)) : z = w := by
  cases z with
  | ofNat n =>
    cases w with
    | ofNat m => exact congrArg _ (dropZeros_toText_inj h)
    | negSucc m =>
      rw [dropZeros_neg] at h
      exact absurd h (dropZeros_ne_minus n _)
  | negSucc n =>
    cases w with
    | ofNat m =>
      rw [dropZeros_neg] at h
      exact absurd h.symm (dropZeros_ne_minus m _)
    | negSucc m =>
      rw [dropZeros_neg, dropZeros_neg] at h
      have hval := dropZeros_toText_inj (congrArg dropZeros (List.cons.inj h).2)
      rw [Nat.succ.inj hval]

theorem dropZeros_intToText_nil {z : ℤ} (h : dropZeros (intToText z) = []) : intToText z = ['0'] := by
  have hzero : dropZeros (intToText z) = dropZeros (intToText 0) := h.trans (by decide)
  rw [dropZeros_intToText_inj hzero]
  rfl

/-! ### What columns hold -/

/-- The column holds the text, whatever its counter was. -/
def Column.CanHold (A : Arith) (col : Column) (text : Text) : Prop := ∃ n value, { col with autoInc := n }.take A value = some text

/-- Numbers of the column are filled up when they are stored. -/
def Column.pads (col : Column) : Bool := col.isAutoInc || col.isKey

/-- A number that the column may print. -/
def Column.Core (A : Arith) (col : Column) (core : Text) : Prop :=
  if col.type = .float ∧ col.isAutoInc = false then ∃ x, core = A.fixed col.prec x else ∃ z, core = intToText z

theorem Column.Core.inj (hA : PrintsOnce A) (ha : col.Core A a) (hb : col.Core A b) (h : dropZeros a = dropZeros b) : a = b := by
  unfold Column.Core at ha hb
  split at ha
  · rename_i hc
    rw [if_pos hc] at hb
    obtain ⟨x, rfl⟩ := ha
    obtain ⟨y, rfl⟩ := hb
    exact hA.inj _ _ _ h
  · rename_i hc
    rw [if_neg hc] at hb
    obtain ⟨z, rfl⟩ := ha
    obtain ⟨w, rfl⟩ := hb
    rw [dropZeros_intToText_inj h]

theorem Column.Core.zero (hA : PrintsOnce A) (ha : col.Core A a) (h : dropZeros a = []) : a = ['0'] := by
  unfold Column.Core at ha
  split at ha
  · obtain ⟨x, rfl⟩ := ha
    exact hA.zero _ _ h
  · obtain ⟨z, rfl⟩ := ha
    exact dropZeros_intToText_nil h

/-- What a column of numbers stores: nothing, or a number, filled up in a key and from a counter. -/
theorem take_number {value : Text} (h : col.take A value = some a) (hn : col.isNumber = true) :
    (col.pads = false ∧ a = []) ∨
      ∃ core, col.Core A core ∧ (col.pads = false → 0 < col.size) ∧ a = if col.pads = true then padLeft col.size '0' core else core := by
  have hlen := (length_cleared_le value).trans (take_length h)
  have hf := take_format h
  have hpos : cleared value ≠ [] → 0 < col.size := fun hv => lt_of_lt_of_le (List.length_pos_iff.mpr hv) hlen
  have htype : col.type = .float ∨ col.type = .int := by simpa [Column.isNumber] using hn
  have hcount : col.isAutoInc = true ∨ col.type = .int → ∀ z, col.Core A (intToText z) := by
    intro hc z
    rw [Column.Core, if_neg fun h => by rcases hc with hc | hc <;> simp [hc] at h]
    exact ⟨z, rfl⟩
  have hprint : col.type = .float → col.isAutoInc = false → ∀ x, col.Core A (A.fixed col.prec x) := by
    intro ht ha x
    rw [Column.Core, if_pos ⟨ht, ha⟩]
    exact ⟨x, rfl⟩
  -- a text that is filled up
  have hfill : col.pads = true → ∀ core, col.Core A core → a = padLeft col.size '0' core →
      ∃ core, col.Core A core ∧ (col.pads = false → 0 < col.size) ∧ a = if col.pads = true then padLeft col.size '0' core else core :=
    fun hp core hc ha => ⟨core, hc, fun hp' => absurd (hp.symm.trans hp') (by decide), by rw [if_pos hp, ha]⟩
  cases hauto : col.isAutoInc with
  | true =>
    refine .inr (hfill (by rw [Column.pads, hauto, Bool.true_or]) (intToText col.autoInc) (hcount (.inl hauto) _) ?_)
    rw [Column.format, if_pos hauto] at hf
    rcases htype with ht | ht <;> simp only [ht] at hf <;> exact (Option.some.inj hf).symm
  | false =>
    cases hkey : col.isKey with
    | true =>
      have hpads : col.pads = true := by rw [Column.pads, hkey, Bool.or_true]
      rw [format_key hauto hkey] at hf
      rcases htype with ht | ht <;> simp only [ht] at hf
      · obtain ⟨x, -, rfl⟩ := Option.map_eq_some_iff.mp hf
        exact .inr (hfill hpads _ (hprint ht hauto x) rfl)
      · obtain ⟨z, -, rfl⟩ := Option.map_eq_some_iff.mp hf
        exact .inr (hfill hpads _ (hcount (.inr ht) z) rfl)
    | false =>
      have hpads : ¬ col.pads = true := by
        rw [Column.pads, hauto, hkey]
        decide
      rw [format_other hauto hkey] at hf
      rcases htype with ht | ht <;> simp only [ht, Option.some.injEq] at hf
      · cases hx : A.stof (cleared value) with
        | none =>
          rw [hx] at hf
          exact .inl ⟨Bool.not_eq_true _ ▸ hpads, hf.symm⟩
        | some x =>
          rw [hx] at hf
          obtain rfl : A.fixed col.prec x = a := hf
          refine .inr ⟨_, hprint ht hauto x, fun _ => hpos fun hnil => ?_, (if_neg hpads).symm⟩
          rw [hnil, A.stof_nil] at hx
          cases hx
      · cases hz : stoi (cleared value) with
        | none =>
          rw [hz] at hf
          exact .inl ⟨Bool.not_eq_true _ ▸ hpads, hf.symm⟩
        | some z =>
          rw [hz] at hf
          obtain rfl : intToText z = a := hf
          refine .inr ⟨_, hcount (.inr ht) z, fun _ => hpos fun hnil => ?_, (if_neg hpads).symm⟩
          rw [hnil] at hz
          cases hz

/-- What any other column stores is not longer than the column. -/
theorem take_length_le {value : Text} (h : col.take A value = some a) (hn : col.isNumber = false) : a.length ≤ col.size := by
  have hlen : (cleared value).length ≤ col.size := (length_cleared_le value).trans (take_length h)
  have hf := take_format h
  have hne : col.type ≠ .float ∧ col.type ≠ .int := by simpa [Column.isNumber] using hn
  have hvalid : col.isValid A value = true := by
    rw [Column.take, Option.ite_none_right_eq_some, Column.accepts, Bool.and_eq_true] at h
    exact h.1.1
  have hsame : some (cleared value) = some a → a.length ≤ col.size := fun hs => by rwa [← Option.some.inj hs]
  cases hauto : col.isAutoInc with
  | true =>
    rw [Column.format, if_pos hauto] at hf
    cases ht : col.type <;> rw [ht] at hf hne
    case float => exact absurd rfl hne.1
    case int => exact absurd rfl hne.2
    all_goals exact hsame hf
  | false =>
    cases hkey : col.isKey with
    | true =>
      rw [format_key hauto hkey] at hf
      cases ht : col.type <;> rw [ht] at hf hne
      case float => exact absurd rfl hne.1
      case int => exact absurd rfl hne.2
      all_goals exact hsame hf
    | false =>
      rw [format_other hauto hkey] at hf
      cases ht : col.type <;> rw [ht] at hf hne
      case float => exact absurd rfl hne.1
      case int => exact absurd rfl hne.2
      case boolean =>
        have hbool : Tran.lower (cleared value) ≠ "true".toList ∧ Tran.lower (cleared value) ≠ "false".toList := bool_of_isValid ht hvalid
        simp only at hf
        rw [if_neg hbool.1, if_neg hbool.2] at hf
        rw [← Option.some.inj hf]
        exact Nat.zero_le _
      all_goals exact hsame hf

theorem Column.CanHold.number (h : col.CanHold A a) (hn : col.isNumber = true) :
    (col.pads = false ∧ a = []) ∨
      ∃ core, col.Core A core ∧ (col.pads = false → 0 < col.size) ∧ a = if col.pads = true then padLeft col.size '0' core else core := by
  obtain ⟨n, value, h⟩ := h
  exact @take_number A { col with autoInc := n } a value h hn

theorem Column.CanHold.length_le (h : col.CanHold A a) (hn : col.isNumber = false) : a.length ≤ col.size := by
  obtain ⟨n, value, h⟩ := h
  exact @take_length_le A { col with autoInc := n } a value h hn

/-! ### Columns and keys -/

/-- Two texts that the column holds are filled up to the same part of a key if they are the same but for the fill. -/
theorem keyPart_eq_iff (hA : PrintsOnce A) (ha : col.CanHold A a) (hb : col.CanHold A b) :
    col.keyPart a = col.keyPart b ↔ col.SameFilled a b := by
  cases hn : col.isNumber with
  | true =>
    have hpart : ∀ text, col.keyPart text = padLeft col.size '0' text := by
      intro text
      have htype : col.type = .float ∨ col.type = .int := by simpa [Column.isNumber] using hn
      rcases htype with ht | ht <;> rw [Column.keyPart, ht]
    rw [hpart, hpart, Column.SameFilled, if_pos hn]
    constructor
    · intro h
      have := congrArg dropZeros h
      rwa [padLeft, padLeft, dropZeros, dropZeros, dropWhile_replicate_append, dropWhile_replicate_append] at this
    · intro h
      -- an absent value is filled up to what zero is filled up to
      have habsent : ∀ {core : Text}, col.Core A core → 0 < col.size → dropZeros core = [] →
          padLeft col.size '0' core = padLeft col.size '0' [] := by
        intro core hc hpos hz
        obtain rfl := hc.zero hA hz
        exact (padLeft_eq_iff hpos (Nat.zero_le _)).mpr rfl
      rcases ha.number hn with ⟨hp, rfl⟩ | ⟨x, hx, hposx, rfl⟩ <;> rcases hb.number hn with ⟨hp', rfl⟩ | ⟨y, hy, hposy, rfl⟩
      · rfl
      · rw [if_neg (show ¬ col.pads = true by rw [hp]; decide)] at h ⊢
        exact (habsent hy (hposy hp) h.symm).symm
      · rw [if_neg (show ¬ col.pads = true by rw [hp']; decide)] at h ⊢
        exact habsent hx (hposx hp') h
      · have hcore : dropZeros x = dropZeros y := by
          cases hp : col.pads with
          | true =>
            rw [if_pos hp, if_pos hp] at h
            rwa [padLeft, padLeft, dropZeros, dropZeros, dropWhile_replicate_append, dropWhile_replicate_append] at h
          | false =>
            rwa [if_neg (show ¬ col.pads = true by rw [hp]; decide), if_neg (show ¬ col.pads = true by rw [hp]; decide)] at h
        rw [hx.inj hA hy hcore]
  | false =>
    have hpart : ∀ text, col.keyPart text = padRight col.size ' ' text := by
      intro text
      rw [Column.keyPart]
      cases ht : col.type <;> simp_all [Column.isNumber]
    rw [hpart, hpart, Column.SameFilled, if_neg (by rw [hn]; decide)]
    exact padRight_eq_iff (ha.length_le hn) (hb.length_le hn)

theorem Column.Agree.sameFilled (h : col.Agree a b) : col.SameFilled a b := by
  obtain ⟨-, h⟩ := h
  rw [Column.SameFilled, Column.isNumber]
  cases ht : col.type <;> simp only [ht] at h <;> simp [h]

theorem keyPart_length_iff : (col.keyPart a).length = (col.keyPart b).length ↔ max col.size a.length = max col.size b.length := by
  rw [length_keyPart, length_keyPart]

/-- Parts of the same widths, one behind the other. -/
theorem parts_eq_iff {fields : List (Column × Text × Text)}
    (h : ∀ f ∈ fields, max f.1.size f.2.1.length = max f.1.size f.2.2.length) :
    ((fields.flatMap fun f => f.1.keyPart f.2.1) = fields.flatMap fun f => f.1.keyPart f.2.2) ↔
      ∀ f ∈ fields, f.1.keyPart f.2.1 = f.1.keyPart f.2.2 := by
  induction fields with
  | nil => exact iff_of_true rfl fun f hf => absurd hf List.not_mem_nil
  | cons f fields ih =>
    obtain ⟨hf, hrest⟩ := List.forall_mem_cons.mp h
    rw [List.flatMap_cons, List.flatMap_cons, List.forall_mem_cons, ← ih hrest]
    constructor
    · exact fun heq => List.append_inj heq (keyPart_length_iff.mpr hf)
    · rintro ⟨h1, h2⟩
      rw [h1, h2]

/-! ### Rows -/

theorem mem_indexed {f : Column × Text × Text} (h : f ∈ indexed cols names r s) :
    ∃ i, cols[i]? = some f.1 ∧ f.2.1 = r.valueAt i ∧ f.2.2 = s.valueAt i := by
  obtain ⟨name, -, h⟩ := List.mem_filterMap.mp h
  obtain ⟨i, -, h⟩ := Option.bind_eq_some_iff.mp h
  obtain ⟨col, hcol, rfl⟩ := Option.map_eq_some_iff.mp h
  exact ⟨i, hcol, rfl, rfl⟩

theorem makeKey_indexed : makeKey cols names r = (indexed cols names r s).flatMap (fun f => f.1.keyPart f.2.1) ∧
    makeKey cols names s = (indexed cols names r s).flatMap fun f => f.1.keyPart f.2.2 := by
  induction names with
  | nil => exact ⟨rfl, rfl⟩
  | cons name names ih =>
    rw [makeKey, makeKey, indexed, List.flatMap_cons, List.flatMap_cons, List.filterMap_cons] at *
    cases hi : columnPos cols name with
    | none => exact ih
    | some i =>
      cases hc : cols[i]? with
      | none => simpa [hc] using ih
      | some col => simpa [hc] using ih

theorem counter_of_base {col' : Column} (h : col'.base = col.base) : col' = { col with autoInc := col'.autoInc } := by
  cases col'
  cases col
  simpa [Column.base] using h

theorem Stored.canHold {i : ℕ} (h : Stored A cols r) (hi : cols[i]? = some col) : col.CanHold A (r.valueAt i) := by
  obtain ⟨cols', hcount, values, texts, hst, -, hshort, rfl⟩ := h
  obtain ⟨hlen, hget⟩ := storeAll_get hst
  obtain ⟨hlt, -⟩ := List.getElem?_eq_some_iff.mp hi
  have hlt' : i < cols'.length := by rwa [hcount.length]
  obtain ⟨value, -, htake⟩ := hget i (by omega) _ (List.getElem?_eq_getElem hlt')
  have hbase : cols'[i].base = col.base := by
    have := congrArg (·[i]?) hcount
    simpa [hi, List.getElem?_eq_getElem hlt'] using this
  rw [counter_of_base hbase] at htake
  rw [valueAt_ofTexts hshort (by omega)]
  exact ⟨_, value, htake⟩

/-- Nothing is shifted where no value is longer than its column. -/
theorem not_shifted {fields : List (Column × Text × Text)}
    (h : ∀ f ∈ fields, f.2.1.length ≤ f.1.size ∧ f.2.2.length ≤ f.1.size) : ¬Shifted fields := by
  rintro ⟨⟨f, hf, hne⟩, -⟩
  rw [max_eq_left (h f hf).1, max_eq_left (h f hf).2] at hne
  exact hne rfl

/-- A key identifies the values of its columns, unless absent values or blanks are filled up to other values, or
values that are longer than their columns are shifted. -/
theorem key_identifies_iff (hA : PrintsOnce A) (hr : Stored A cols r) (hs : Stored A cols s) (names : List Text) :
    (makeKey cols names r = makeKey cols names s ↔ ∀ f ∈ indexed cols names r s, f.1.Agree f.2.1 f.2.2) ↔
      ¬ (Blurred (indexed cols names r s) ∨ Shifted (indexed cols names r s)) := by
  have hkeys := @makeKey_indexed cols names r s
  rw [hkeys.1, hkeys.2]
  have hpart : ∀ f ∈ indexed cols names r s, f.1.keyPart f.2.1 = f.1.keyPart f.2.2 ↔ f.1.SameFilled f.2.1 f.2.2 := by
    intro f hf
    obtain ⟨i, hcol, h1, h2⟩ := mem_indexed hf
    rw [h1, h2]
    exact keyPart_eq_iff hA (hr.canHold hcol) (hs.canHold hcol)
  generalize indexed cols names r s = fields at hpart
  have hwidth : (∀ f ∈ fields, f.1.SameFilled f.2.1 f.2.2) → ∀ f ∈ fields, max f.1.size f.2.1.length = max f.1.size f.2.2.length :=
    fun h f hf => keyPart_length_iff.mp (congrArg _ ((hpart f hf).mpr (h f hf)))
  -- the keys are equal if all parts are, or by a shift
  have hkey : ((fields.flatMap fun f => f.1.keyPart f.2.1) = fields.flatMap fun f => f.1.keyPart f.2.2) ↔
      (∀ f ∈ fields, f.1.SameFilled f.2.1 f.2.2) ∨ Shifted fields := by
    by_cases hw : ∀ f ∈ fields, max f.1.size f.2.1.length = max f.1.size f.2.2.length
    · rw [parts_eq_iff hw, or_iff_left fun h => h.1.elim fun f hf => hf.2 (hw f hf.1)]
      exact forall₂_congr hpart
    · rw [or_iff_right fun h => hw (hwidth h)]
      push Not at hw
      exact ⟨fun h => ⟨hw, h⟩, And.right⟩
  rw [hkey]
  by_cases hagree : ∀ f ∈ fields, f.1.Agree f.2.1 f.2.2
  · have hsame : ∀ f ∈ fields, f.1.SameFilled f.2.1 f.2.2 := fun f hf => (hagree f hf).sameFilled
    refine iff_of_true (iff_of_true (.inl hsame) hagree) ?_
    rintro (⟨-, f, hf, hne⟩ | ⟨⟨f, hf, hne⟩, -⟩)
    · exact hne (hagree f hf)
    · exact hne (hwidth hsame f hf)
  · rw [iff_false_right hagree, Blurred, and_iff_left]
    push Not at hagree
    exact hagree

/-! ### Whole numbers -/

theorem printsOnce_whole : PrintsOnce wholeNumbers where
  inj _ _ _ h := congrArg _ (dropZeros_intToText_inj h)
  zero _ _ h := dropZeros_intToText_nil h

theorem stored_person {id name : String} (h : storeAll wholeNumbers idAndName [id.toList, name.toList] = some [id.toList, name.toList])
    (hcap : id.toList.length + name.toList.length ≤ capacity idAndName) (hid : id.toList.length < 256)
    (hname : name.toList.length < 256) : Stored wholeNumbers idAndName (person id name) := by
  refine ⟨idAndName, rfl, _, _, h, ?_, ?_, rfl⟩
  · simpa using hcap
  · intro text ht
    rcases List.mem_cons.mp ht with rfl | ht
    · exact hid
    · rwa [List.mem_singleton.mp ht]

/-- The keys of two persons are different, as their numbers are. -/
theorem key_identifies_persons : ¬ makeKey idAndName ["id".toList] (person "5" "ann") = makeKey idAndName ["id".toList] (person "12" "bob") := by
  refine fun h => absurd (((key_identifies_iff printsOnce_whole (stored_person (by decide) (by decide) (by decide) (by decide))
    (stored_person (by decide) (by decide) (by decide) (by decide)) _).mpr ?_).mp h) ?_
  · rintro (⟨hsame, -⟩ | hshift)
    · have heq : dropZeros "5".toList = dropZeros "12".toList := hsame _ List.mem_cons_self
      exact absurd heq (by decide)
    · exact not_shifted (by decide) hshift
  · intro hagree
    have heq : dropZeros "5".toList = dropZeros "12".toList := (hagree _ List.mem_cons_self).2
    exact absurd heq (by decide)

/-- The columns of `CREATE TABLE t (id CHAR(2), code CHAR(4), PRIMARY KEY (code))`. The flags are set at the first
column, not at the one that the key names. -/
def codeColumns : List Column :=
  [{ name := "id".toList, type := .char, size := 2, prec := 0, enumList := [], isAutoInc := false, isNotNull := true,
     isPrimary := true, isUnique := true, autoInc := 0 },
   { name := "code".toList, type := .char, size := 4, prec := 0, enumList := [], isAutoInc := false, isNotNull := false,
     isPrimary := false, isUnique := false, autoInc := 0 }]

/-- An absent code and a code of four blanks have the same key. -/
theorem absent_key_as_blanks : ¬∀ (A : Arith) (cols : List Column) (names : List Text) (r s : Row), PrintsOnce A →
    Stored A cols r → Stored A cols s →
      (makeKey cols names r = makeKey cols names s ↔ ∀ f ∈ indexed cols names r s, f.1.Agree f.2.1 f.2.2) := by
  intro h
  have hr : Stored wholeNumbers codeColumns (Row.ofTexts ["1".toList, []]) :=
    ⟨codeColumns, rfl, ["1".toList, "null".toList], _, by decide, by decide, by decide, rfl⟩
  have hs : Stored wholeNumbers codeColumns (Row.ofTexts ["2".toList, "    ".toList]) :=
    ⟨codeColumns, rfl, ["2".toList, "    ".toList], _, by decide, by decide, by decide, rfl⟩
  have hagree := (h wholeNumbers codeColumns ["code".toList] _ _ printsOnce_whole hr hs).mp (by decide)
  have := (hagree _ List.mem_cons_self).1
  revert this
  decide

end RedB.Dml
