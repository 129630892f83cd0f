import RedB.Dml.Decimals
import RedB.Dml.Append
import RedB.Theory.StableSort
import Mathlib.Data.Sum.Order

/-!
# ORDER BY

The rows of a result are put into a multimap under one key, and written in its order. The key of ORDER BY
has a field for each of its columns, with numbers to the right, behind zeros, and other values to the
left, in front of blanks.

Rows come as the columns say, as numbers or as texts, if and only if two rows do not differ first in
negative numbers with as many digits, or in a zero and a negative zero that are the wrong way round
(`orderBy_sorts_iff`).
-/

namespace RedB.Dml

open StableSort

/-! ### The output of SELECT -/

/-- What an item of the list of expressions has for a row, with `m_quote`. -/
structure Cell where
  quote : Bool
  text : Text
deriving DecidableEq, Repr

/-- A value of a column of ORDER BY: a number in units of its last digit, or a text. -/
inductive Datum where
  | number (neg : Bool) (n : ℕ)
  | text (text : Text)
deriving DecidableEq, Repr

/-- A row of the result: the values of the columns of ORDER BY, `m_value` of their items, and the
other items. -/
structure ResultRow where
  data : List Datum
  values : List Text
  cells : List Cell
deriving DecidableEq, Repr

/-- `m_output`: a multimap from keys to lines. -/
abbrev Output := List (Text × Text)

variable (A : Arith)

-- `std::istringstream >>` of a number, zero if there is none
variable (get : Text → A.F)

/-- The key of one column, of `vm::output_expr_list`. -/
def keyText (col : Column) (value : Text) : Text :=
  match col.type with
  | .float => padLeft col.size '0' (A.fixed col.prec (get value))
  | .int => padLeft col.size '0' value
  | _ => padRight col.size ' ' value

/-- The key of a row, of `vm::output_expr_list`. -/
def orderKey (cols : List Column) (values : List Text) : Text := (List.zipWith (keyText A get) cols values).flatten

/-- The line of a row, of `vm::output_expr_list`, from item `i` on. -/
def rowText (file : Bool) : ℕ → List Cell → Text
  | _, [] => []
  | i, cell :: cells =>
      (if file then (if 0 < i then ", ".toList else []) ++ (if cell.quote then '"' :: cell.text ++ ['"'] else cell.text)
        else cell.text ++ [Char.ofNat 174]) ++ rowText file (i + 1) cells

/-- `vm::output_expr_list` -/
def outputExprList (file : Bool) (keyList : List Column) (output : Output) (r : ResultRow) : Output :=
  let key := if keyList = [] then padLeft 20 '0' (toText output.length) else orderKey A get keyList r.values
  insertLast (fun p q => decide (p.1 ≤ q.1)) (key, rowText file keyList.length r.cells) output

/-- The lines of `vm::output_result`, or those that `vm::output_boxed_result` puts into its box. -/
def lines (file : Bool) (keyList : List Column) (rows : List ResultRow) : List Text :=
  (rows.foldl (outputExprList A get file keyList) []).map Prod.snd

/-- The rows in the order of their keys. -/
def written (keyList : List Column) (rows : List ResultRow) : List ResultRow :=
  sortLast (fun a b => decide (orderKey A get keyList a.values ≤ orderKey A get keyList b.values)) rows

/-! ### What ORDER BY is for -/

/-- The digits behind the point. -/
def Column.point (col : Column) : ℕ := if col.type = .float then col.prec else 0

/-- The number, or the text with blanks. -/
def Datum.rank (col : Column) : Datum → ℤ ⊕ₗ Text
  | .number neg n => Sum.inlₗ (if neg then -(n : ℤ) else n)
  | .text t => Sum.inrₗ (padRight col.size ' ' t)

/-- The values of a row, as they are compared. -/
def typedKey (keyList : List Column) (data : List Datum) : List (ℤ ⊕ₗ Text) := List.zipWith Datum.rank keyList data

/-- The order of rows: column by column. -/
def typedLe (keyList : List Column) (a b : ResultRow) : Bool := decide (typedKey keyList a.data ≤ typedKey keyList b.data)

/-- A number as it is stored: in a column of a key there are zeros in front of it. -/
def StoredNumber (col : Column) (neg : Bool) (n : ℕ) (value : Text) : Prop :=
  value = decimal col.point neg n ∨ value = field col.size col.point neg n

/-- A value is stored in a column, and it is not null. -/
def StoredAs (col : Column) (d : Datum) (value : Text) : Prop :=
  match col.type, d with
  | .int, .number neg n => StoredNumber col neg n value ∧ (decimal 0 neg n).length ≤ col.size
  | .float, .number neg n => StoredNumber col neg n value ∧ ∃ x, A.fixed col.prec x = decimal col.prec neg n
  | .char, .text t | .varchar, .text t | .date, .text t => value = t ∧ t.length ≤ col.size ∧ t ≠ NULL_VALUE
  | _, _ => False

/-- All values of a row are stored in their columns. -/
def StoredAll : List Column → List Datum → List Text → Prop
  | [], [], [] => True
  | col :: cols, d :: ds, value :: values => StoredAs A col d value ∧ StoredAll cols ds values
  | _, _, _ => False

/-- A floating point number is not wider than its column, and there are no zeros in front of the sign. -/
def Fits (col : Column) (d : Datum) (value : Text) : Prop :=
  match col.type, d with
  | .float, .number neg n => (decimal col.prec neg n).length ≤ col.size ∧ (neg = true → value = decimal col.prec neg n)
  | _, _ => True

/-- All values of a row fit their columns. -/
def FitsAll : List Column → List Datum → List Text → Prop
  | col :: cols, d :: ds, value :: values => Fits col d value ∧ FitsAll cols ds values
  | _, _, _ => True

/-- Two values that have the same key. -/
def Datum.same (col : Column) : Datum → Datum → Bool
  | .number s n, .number t m => s = t && n = m
  | .text x, .text y => padRight col.size ' ' x = padRight col.size ' ' y
  | _, _ => false

/-- Values that differ are not both negative numbers with as many digits; of a zero and a negative zero,
the negative one is in the row that is not greater behind them. -/
def Datum.Apart (col : Column) (le : Prop) : Datum → Datum → Prop
  | .number true n, .number true m => (digits col.point n).length ≠ (digits col.point m).length
  | .number s n, .number _ m => n = 0 → m = 0 → (s = true ↔ le)
  | _, _ => True

instance (col : Column) (le : Prop) [Decidable le] (d e : Datum) : Decidable (Datum.Apart col le d e) :=
  match d, e with
  | .number true n, .number true m => inferInstanceAs (Decidable ((digits col.point n).length ≠ (digits col.point m).length))
  | .number true n, .number false m => inferInstanceAs (Decidable (n = 0 → m = 0 → (true = true ↔ le)))
  | .number false n, .number _ m => inferInstanceAs (Decidable (n = 0 → m = 0 → (false = true ↔ le)))
  | .number true _, .text _ => inferInstanceAs (Decidable True)
  | .number false _, .text _ => inferInstanceAs (Decidable True)
  | .text _, _ => inferInstanceAs (Decidable True)

/-- The first values in which two rows differ can be compared. -/
def Comparable : List Column → List Datum → List Datum → Prop
  | col :: cols, d :: ds, e :: es =>
      if d.same col e then Comparable cols ds es else Datum.Apart col (typedKey cols ds ≤ typedKey cols es) d e
  | _, _, _ => True

instance decidableComparable (cols : List Column) (ds es : List Datum) : Decidable (Comparable cols ds es) :=
  match cols, ds, es with
  | [], _, _ => inferInstanceAs (Decidable True)
  | _ :: _, [], _ => inferInstanceAs (Decidable True)
  | _ :: _, _ :: _, [] => inferInstanceAs (Decidable True)
  | col :: cols, d :: ds, e :: es =>
      have := decidableComparable cols ds es
      show Decidable (if d.same col e then Comparable cols ds es else Datum.Apart col (typedKey cols ds ≤ typedKey cols es) d e) from
        inferInstance

/-- Floating point numbers are read as they are printed. -/
structure Decimals : Prop where
  /-- What has been printed is printed again as it is. -/
  again : ∀ prec x neg n, A.fixed prec x = decimal prec neg n → A.fixed prec (get (decimal prec neg n)) = decimal prec neg n
  /-- Zeros in front of a number that is not negative do not count. -/
  zeros : ∀ width prec n, get (field width prec false n) = get (decimal prec false n)

variable {A get} {col : Column} {cols : List Column} {d e : Datum} {ds es : List Datum} {value : Text} {values : List Text}

/-! ### Values as they are stored -/

/-- A whole number with its sign. -/
theorem intToText_eq (z : ℤ) : ∃ neg n, intToText z = decimal 0 neg n := by
  cases z with
  | ofNat n => exact ⟨false, n, rfl⟩
  | negSucc n => exact ⟨true, n + 1, rfl⟩

/-- What `row::append` stores in a column of numbers or texts is a number or a text, or null. -/
theorem storedAs_of_take {text : Text} (h : col.take A value = some text) (hne : text ≠ NULL_VALUE) (hauto : col.isAutoInc = false)
    (ht : col.type = .int ∨ col.type = .char ∨ col.type = .varchar ∨ col.type = .date) : ∃ d, StoredAs A col d text := by
  rw [Column.take] at h
  split at h
  · rename_i hacc
    rw [Column.accepts, Bool.and_eq_true, decide_eq_true_eq] at hacc
    obtain ⟨-, hlen⟩ := hacc
    rw [Column.store, Column.format, hauto, if_neg (by decide)] at h
    rcases ht with ht | ht | ht | ht
    · simp only [ht] at h
      have hpoint : col.point = 0 := if_neg (by rw [ht]; decide)
      have hnumber : ∃ z, (text = intToText z ∨ text = padLeft col.size '0' (intToText z)) ∧ (intToText z).length ≤ value.length := by
        have hnone : ∀ {z}, stoi (if value = "null".toList then [] else value) = some z → (intToText z).length ≤ value.length := by
          intro z hz
          split at hz
          · cases hz
          · exact length_intToText_le hz
        split at h
        · obtain ⟨z, hz, rfl⟩ := Option.map_eq_some_iff.mp h
          exact ⟨z, Or.inr rfl, hnone hz⟩
        · cases hz : stoi (if value = "null".toList then [] else value) with
          | none =>
            rw [hz] at h
            exact absurd (Option.some.inj h).symm hne
          | some z =>
            rw [hz] at h
            exact ⟨z, Or.inl (Option.some.inj h).symm, hnone hz⟩
      obtain ⟨z, htext, hz⟩ := hnumber
      obtain ⟨neg, n, hn⟩ := intToText_eq z
      refine ⟨.number neg n, ?_⟩
      rw [hn] at htext hz
      simp only [StoredAs, ht, StoredNumber, hpoint]
      exact ⟨htext, hz.trans hlen⟩
    all_goals
      simp only [ht] at h
      refine ⟨.text text, ?_⟩
      simp only [StoredAs, ht]
      have htext : (if value = "null".toList then [] else value) = text := by
        split at h <;> exact Option.some.inj h
      refine ⟨trivial, ?_, hne⟩
      rw [← htext]
      split
      · exact Nat.zero_le _
      · exact hlen
  · cases h

/-! ### Fields of columns -/

/-- The field of a value. -/
def Datum.part (col : Column) : Datum → Text
  | .number neg n => field col.size col.point neg n
  | .text t => padRight col.size ' ' t

/-- A value that the field of its column has room for. -/
def Datum.Of (col : Column) : Datum → Prop
  | .number neg n => (col.type = .int ∨ col.type = .float) ∧ (decimal col.point neg n).length ≤ col.size
  | .text t => ¬(col.type = .int ∨ col.type = .float) ∧ t.length ≤ col.size

theorem Datum.Of.length_part (h : d.Of col) : (d.part col).length = col.size := by
  cases d with
  | number neg n => exact length_field h.2
  | text t => exact length_padRight_eq h.2

theorem padLeft_padLeft (n : ℕ) (c : Char) (text : Text) : padLeft n c (padLeft n c text) = padLeft n c text := by
  have hlen := length_padLeft n c text
  rw [padLeft, hlen, Nat.sub_eq_zero_of_le (le_max_left ..)]
  rfl

theorem StoredNumber.padLeft {neg : Bool} {n : ℕ} (h : StoredNumber col neg n value) :
    padLeft col.size '0' value = field col.size col.point neg n := by
  rcases h with rfl | rfl
  · rfl
  · exact padLeft_padLeft _ _ _

/-- A value that is stored and fits has its field in the key. -/
theorem keyText_eq (hD : Decimals A get) (hs : StoredAs A col d value) (hf : Fits col d value) :
    d.Of col ∧ keyText A get col value = d.part col := by
  unfold StoredAs at hs
  split at hs
  · rename_i neg n ht
    obtain ⟨hstored, hlen⟩ := hs
    have hpoint : col.point = 0 := if_neg (by rw [ht]; decide)
    refine ⟨⟨Or.inl ht, by rw [hpoint]; exact hlen⟩, ?_⟩
    rw [keyText, ht]
    exact hstored.padLeft
  · rename_i neg n ht
    obtain ⟨hstored, x, hx⟩ := hs
    have hpoint : col.point = col.prec := if_pos ht
    simp only [Fits, ht] at hf
    obtain ⟨hlen, hsign⟩ := hf
    refine ⟨⟨Or.inr ht, by rw [hpoint]; exact hlen⟩, ?_⟩
    have hagain := hD.again _ _ _ _ hx
    have hprint : A.fixed col.prec (get value) = decimal col.prec neg n := by
      cases neg with
      | true => rw [hsign rfl, hagain]
      | false =>
        rw [StoredNumber, hpoint] at hstored
        rcases hstored with rfl | rfl
        · exact hagain
        · rw [hD.zeros, hagain]
    rw [keyText, ht]
    show padLeft col.size '0' (A.fixed col.prec (get value)) = field col.size col.point neg n
    rw [hprint, hpoint]
    rfl
  all_goals first
    | (rename_i t ht
       obtain ⟨rfl, hlen, -⟩ := hs
       refine ⟨⟨by rw [ht]; decide, hlen⟩, ?_⟩
       rw [keyText, ht]
       rfl)
    | exact hs.elim

/-- The values of a row, with room for them. -/
def OfAll : List Column → List Datum → Prop
  | [], [] => True
  | col :: cols, d :: ds => d.Of col ∧ OfAll cols ds
  | _, _ => False

/-- The fields of a row. -/
def parts (cols : List Column) (ds : List Datum) : Text := (List.zipWith Datum.part cols ds).flatten

theorem orderKey_eq (hD : Decimals A get) (hs : StoredAll A cols ds values) (hf : FitsAll cols ds values) :
    OfAll cols ds ∧ orderKey A get cols values = parts cols ds := by
  induction cols generalizing ds values with
  | nil =>
    cases ds with
    | nil => exact ⟨trivial, rfl⟩
    | cons => exact hs.elim
  | cons col cols ih =>
    cases ds with
    | nil => exact hs.elim
    | cons d ds =>
      cases values with
      | nil => exact hs.elim
      | cons value values =>
        obtain ⟨hof, htext⟩ := keyText_eq hD hs.1 hf.1
        obtain ⟨hall, hkey⟩ := ih hs.2 hf.2
        refine ⟨⟨hof, hall⟩, ?_⟩
        show keyText A get col value ++ orderKey A get cols values = d.part col ++ parts cols ds
        rw [htext, hkey]

/-! ### Rows that are compared by their fields -/

theorem append_le_append_iff {x y r s : Text} (h : x.length = y.length) : x ++ r ≤ y ++ s ↔ x < y ∨ x = y ∧ r ≤ s := by
  rw [← not_lt, append_lt_append_iff h.symm, not_or, not_and, not_lt]
  constructor
  · rintro ⟨hle, himp⟩
    rcases lt_or_eq_of_le hle with hlt | heq
    · exact Or.inl hlt
    · exact Or.inr ⟨heq, not_lt.mp (himp heq.symm)⟩
  · rintro (hlt | ⟨rfl, hrs⟩)
    · exact ⟨hlt.le, fun he => absurd hlt (he ▸ lt_irrefl _)⟩
    · exact ⟨le_rfl, fun _ => not_lt.mpr hrs⟩

theorem cons_le_cons_iff' {α : Type} [LinearOrder α] {a b : α} {l m : List α} : a :: l ≤ b :: m ↔ a < b ∨ a = b ∧ l ≤ m := by
  rw [← not_lt, List.cons_lt_cons_iff, not_or, not_and, not_lt]
  constructor
  · rintro ⟨hle, himp⟩
    rcases lt_or_eq_of_le hle with hlt | heq
    · exact Or.inl hlt
    · exact Or.inr ⟨heq, not_lt.mp (himp heq.symm)⟩
  · rintro (hlt | ⟨rfl, hrs⟩)
    · exact ⟨hlt.le, fun he => absurd hlt (he ▸ lt_irrefl _)⟩
    · exact ⟨le_rfl, fun _ => not_lt.mpr hrs⟩

/-- Values with the same key have the same field. -/
theorem Datum.same_iff (hd : d.Of col) (he : e.Of col) : d.same col e = true ↔ d.part col = e.part col := by
  cases d with
  | number s n =>
    cases e with
    | number t m =>
      rw [Datum.same, Bool.and_eq_true, decide_eq_true_eq, decide_eq_true_eq]
      exact ⟨fun ⟨hs, hn⟩ => by rw [hs, hn], field_inj hd.2 he.2⟩
    | text y => exact absurd hd.1 he.1
  | text x =>
    cases e with
    | number t m => exact absurd he.1 hd.1
    | text y => exact decide_eq_true_iff

theorem Datum.rank_eq_of_same (h : d.same col e = true) : d.rank col = e.rank col := by
  cases d with
  | number s n =>
    cases e with
    | number t m =>
      rw [Datum.same, Bool.and_eq_true, decide_eq_true_eq, decide_eq_true_eq] at h
      rw [h.1, h.2]
    | text y => cases h
  | text x =>
    cases e with
    | number t m => cases h
    | text y => exact congrArg Sum.inrₗ (of_decide_eq_true h)

theorem inl_lt_iff {a b : ℤ} : (Sum.inlₗ a : ℤ ⊕ₗ Text) < Sum.inlₗ b ↔ a < b := Sum.Lex.inl_lt_inl_iff

theorem inr_lt_iff {x y : Text} : (Sum.inrₗ x : ℤ ⊕ₗ Text) < Sum.inrₗ y ↔ x < y := Sum.Lex.inr_lt_inr_iff

theorem inr_inj {x y : Text} : (Sum.inrₗ x : ℤ ⊕ₗ Text) = Sum.inrₗ y ↔ x = y := by
  simp [Sum.inrₗ]

theorem inl_inj {a b : ℤ} : (Sum.inlₗ a : ℤ ⊕ₗ Text) = Sum.inlₗ b ↔ a = b := by
  simp [Sum.inlₗ]

/-- The fields of two rows are compared as their values are, if and only if the first values in which
they differ can be. -/
theorem parts_le_iff (hds : OfAll cols ds) (hes : OfAll cols es) :
    (parts cols ds ≤ parts cols es ↔ typedKey cols ds ≤ typedKey cols es) ↔ Comparable cols ds es := by
  induction cols generalizing ds es with
  | nil => exact iff_of_true (iff_of_true le_rfl le_rfl) trivial
  | cons col cols ih =>
    cases ds with
    | nil => exact hds.elim
    | cons d ds =>
      cases es with
      | nil => exact hes.elim
      | cons e es =>
        obtain ⟨hd, hds⟩ := hds
        obtain ⟨he, hes⟩ := hes
        have hrest := ih hds hes
        have hparts : parts (col :: cols) (d :: ds) ≤ parts (col :: cols) (e :: es) ↔
            d.part col < e.part col ∨ d.part col = e.part col ∧ parts cols ds ≤ parts cols es :=
          append_le_append_iff (by rw [hd.length_part, he.length_part])
        have hkeys : typedKey (col :: cols) (d :: ds) ≤ typedKey (col :: cols) (e :: es) ↔
            d.rank col < e.rank col ∨ d.rank col = e.rank col ∧ typedKey cols ds ≤ typedKey cols es := cons_le_cons_iff'
        rw [hparts, hkeys, Comparable]
        by_cases hsame : d.same col e = true
        · rw [if_pos hsame, ← hrest, (Datum.same_iff hd he).mp hsame, Datum.rank_eq_of_same hsame]
          simp only [lt_irrefl, false_or, true_and]
        · have hne : d.part col ≠ e.part col := mt (Datum.same_iff hd he).mpr hsame
          rw [if_neg hsame]
          simp only [hne, false_and, or_false]
          cases d with
          | text x =>
            cases e with
            | number t m => exact absurd he.1 hd.1
            | text y =>
              refine iff_of_true ?_ trivial
              show padRight col.size ' ' x < padRight col.size ' ' y ↔ _
              have hrank : ¬Datum.rank col (.text x) = Datum.rank col (.text y) := fun h => hne (inr_inj.mp h)
              simp only [hrank, false_and, or_false]
              exact inr_lt_iff.symm
          | number s n =>
            cases e with
            | text y => exact absurd hd.1 he.1
            | number t m =>
              show (field col.size col.point s n < field col.size col.point t m ↔ _) ↔ _
              rw [field_lt_iff hd.2 he.2]
              simp only [Datum.rank, inl_lt_iff, inl_inj]
              have hnm : ¬(s = t ∧ n = m) := by
                rw [Datum.same, Bool.and_eq_true, decide_eq_true_eq, decide_eq_true_eq] at hsame
                exact hsame
              cases s with
              | false =>
                cases t with
                | false =>
                  refine iff_of_true ?_ fun hn hm => absurd ⟨rfl, by rw [hn, hm]⟩ hnm
                  simp only [Bool.false_eq_true, if_false, Nat.cast_inj, Nat.cast_lt]
                  exact (or_iff_left fun h => hnm ⟨rfl, h.1⟩).symm
                | true =>
                  simp only [Bool.false_eq_true, if_false, if_true, false_iff]
                  constructor
                  · intro hnot hn hm
                    refine iff_of_false (by decide) fun hle => hnot (Or.inr ⟨by rw [hn, hm]; rfl, hle⟩)
                  · rintro hz (hlt | ⟨heq, hle⟩)
                    · omega
                    · exact absurd ((hz (by omega) (by omega)).mpr hle) (by decide)
              | true =>
                cases t with
                | false =>
                  simp only [Bool.false_eq_true, if_false, if_true, true_iff]
                  constructor
                  · rintro (hlt | ⟨heq, hle⟩) hn hm
                    · omega
                    · exact iff_of_true rfl hle
                  · intro hz
                    by_cases hn : n = 0 ∧ m = 0
                    · exact Or.inr ⟨by rw [hn.1, hn.2]; rfl, (hz hn.1 hn.2).mp rfl⟩
                    · exact Or.inl (by omega)
                | true =>
                  have hne' : n ≠ m := fun h => hnm ⟨rfl, h⟩
                  have heq : ¬(-(n : ℤ) = -(m : ℤ)) := by omega
                  simp only [if_true, heq, false_and, or_false]
                  split
                  · rename_i hl
                    exact iff_of_false (fun h => by have := h.mp; have := h.mpr; omega) fun h => h hl
                  · rename_i hl
                    exact iff_of_true (by omega) hl

/-! ### The rows of a result -/

variable {rows : List ResultRow}

theorem compares_of_key {α β : Type} [LinearOrder β] (f : α → β) : Compares fun a b => decide (f a ≤ f b) where
  trans _ _ _ hab hbc := decide_eq_true (le_trans (of_decide_eq_true hab) (of_decide_eq_true hbc))
  total a b := (le_total (f a) (f b)).imp decide_eq_true decide_eq_true

theorem compares_typedLe (cols : List Column) : Compares (typedLe cols) := compares_of_key fun r : ResultRow => typedKey cols r.data

/-- The lines come in the order of the keys. -/
theorem lines_eq (file : Bool) (hcols : cols ≠ []) (rows : List ResultRow) :
    lines A get file cols rows = (written A get cols rows).map fun r => rowText file cols.length r.cells := by
  have hfold : ∀ acc : List ResultRow,
      rows.foldl (outputExprList A get file cols) (acc.map fun r => (orderKey A get cols r.values, rowText file cols.length r.cells)) =
        (rows.foldl (fun acc r => insertLast (fun a b => decide (orderKey A get cols a.values ≤ orderKey A get cols b.values)) r acc) acc).map
          fun r => (orderKey A get cols r.values, rowText file cols.length r.cells) := by
    induction rows with
    | nil => exact fun acc => rfl
    | cons r rows ih =>
      intro acc
      rw [List.foldl_cons, List.foldl_cons, ← ih, outputExprList]
      simp only [if_neg hcols]
      rw [@insertLast_map _ _ (fun p q : Text × Text => decide (p.1 ≤ q.1))
        fun r : ResultRow => (orderKey A get cols r.values, rowText file cols.length r.cells)]
  rw [lines, written, sortLast]
  have h := hfold []
  rw [List.map_nil] at h
  rw [h, List.map_map]
  rfl

/-- The lines of a result are those of its rows in some order, and rows whose keys are as wide as their
columns come sorted, as numbers and texts, if and only if each two of them can be compared. -/
theorem orderBy_sorts_iff {A : Arith} {get : Text → A.F} {cols : List Column} {rows : List ResultRow} (hD : Decimals A get) (hcols : cols ≠ [])
    (hrows : ∀ r ∈ rows, StoredAll A cols r.data r.values) :
    (∀ file, lines A get file cols rows = (written A get cols rows).map fun r => rowText file cols.length r.cells) ∧
      ((∀ r ∈ rows, FitsAll cols r.data r.values) → (Sorts (typedLe cols) rows (written A get cols rows) ↔
        ∀ a b, [a, b].Sublist rows → Comparable cols a.data b.data)) := by
  refine ⟨fun file => lines_eq file hcols rows, fun hfits => ?_⟩
  rw [written, sorts_iff (compares_of_key fun r : ResultRow => orderKey A get cols r.values) (compares_typedLe cols)]
  refine forall_congr' fun a => forall_congr' fun b => imp_congr_right fun hab => ?_
  have ha : a ∈ rows := hab.subset List.mem_cons_self
  have hb : b ∈ rows := hab.subset (List.mem_cons_of_mem _ List.mem_cons_self)
  obtain ⟨hofa, hkeya⟩ := orderKey_eq hD (hrows a ha) (hfits a ha)
  obtain ⟨hofb, hkeyb⟩ := orderKey_eq hD (hrows b hb) (hfits b hb)
  rw [decide_eq_true_iff, typedLe, decide_eq_true_iff, hkeya, hkeyb]
  exact parts_le_iff hofa hofb

/-! ### `ORDER BY id, name` -/

/-- A whole number. -/
def readWhole : Text → ℤ
  | '-' :: ds => -(Nat.ofDigitChars 10 ds 0 : ℤ)
  | ds => Nat.ofDigitChars 10 ds 0

theorem readWhole_digits {ds : Text} (h : ds.head? ≠ some '-') : readWhole ds = Nat.ofDigitChars 10 ds 0 := by
  unfold readWhole
  split
  · exact absurd rfl h
  · rfl

theorem head_toText_append (n : ℕ) (text : Text) : (toText n ++ text).head? ≠ some '-' := by
  cases h : toText n with
  | nil => exact absurd h Nat.toDigits_ne_nil
  | cons c cs =>
    rintro ⟨⟩
    exact absurd (allDigits_toText n '-' (h ▸ List.mem_cons_self)) (by decide)

theorem head_digits (prec n : ℕ) : (digits prec n).head? ≠ some '-' := by
  rw [digits]
  split
  · rw [← List.append_nil (toText n)]
    exact head_toText_append n []
  · exact head_toText_append _ _

theorem readWhole_intToText (z : ℤ) : readWhole (intToText z) = z := by
  cases z with
  | ofNat n =>
    have hhead : (toText n).head? ≠ some '-' := by
      rw [← List.append_nil (toText n)]
      exact head_toText_append n []
    show readWhole (toText n) = _
    rw [readWhole_digits hhead, toText, Nat.ofDigitChars_ten_toDigits]
    rfl
  | negSucc n =>
    show -(Nat.ofDigitChars 10 (toText (n + 1)) 0 : ℤ) = _
    rw [toText, Nat.ofDigitChars_ten_toDigits]
    rfl

theorem decimals_whole : Decimals wholeNumbers readWhole where
  again prec x neg n h := by
    rw [← h]
    exact congrArg intToText (readWhole_intToText x)
  zeros width prec n := by
    have hhead : (field width prec false n).head? ≠ some '-' := by
      show (List.replicate (width - (digits prec n).length) '0' ++ digits prec n).head? ≠ some '-'
      cases width - (digits prec n).length with
      | zero => exact head_digits prec n
      | succ k => exact fun h => by cases h
    rw [readWhole_digits hhead]
    show (Nat.ofDigitChars 10 (List.replicate _ '0' ++ digits prec n) 0 : ℤ) = readWhole (digits prec n)
    rw [readWhole_digits (head_digits prec n), Nat.ofDigitChars_append, Nat.ofDigitChars_replicate_zero, Nat.mul_zero]

/-- A column of a table without keys. -/
def plainColumn (name : String) (type : ColType) (size : ℕ) : Column :=
  { name := name.toList, type, size, prec := 0, enumList := [], isAutoInc := false, isNotNull := false, isPrimary := false,
    isUnique := false, autoInc := 0 }

/-- The columns of the key. -/
def idAndName : List Column := [plainColumn "id" .int 10, plainColumn "name" .varchar 5]

/-- A row of a table with these columns. -/
def personRow (neg : Bool) (n : ℕ) (name : String) : ResultRow :=
  { data := [.number neg n, .text name.toList], values := [decimal 0 neg n, name.toList], cells := [⟨true, name.toList⟩] }

/-- The rows `-3`, `5` and `-10`. -/
theorem orderBy_sorts_three : Sorts (typedLe idAndName) [personRow true 3 "ann", personRow false 5 "bob", personRow true 10 "ann"]
    (written wholeNumbers readWhole idAndName [personRow true 3 "ann", personRow false 5 "bob", personRow true 10 "ann"]) := by
  refine ((orderBy_sorts_iff decimals_whole (by decide) ?_).2 ?_).mpr ?_
  · intro r hr
    simp only [List.mem_cons, List.not_mem_nil, or_false] at hr
    rcases hr with rfl | rfl | rfl
    all_goals exact ⟨⟨Or.inl rfl, by decide⟩, ⟨rfl, by decide, by decide⟩, trivial⟩
  · intro r hr
    simp only [List.mem_cons, List.not_mem_nil, or_false] at hr
    rcases hr with rfl | rfl | rfl
    all_goals exact ⟨trivial, trivial, trivial⟩
  · have hpairs : [personRow true 3 "ann", personRow false 5 "bob", personRow true 10 "ann"].Pairwise
        fun a b => Comparable idAndName a.data b.data := by
      refine .cons ?_ (.cons ?_ (.cons ?_ .nil))
      · decide +kernel
      · decide +kernel
      · decide +kernel
    exact fun a b => List.pairwise_iff_forall_sublist.mp hpairs

/-- Of the rows `-3` and `-5`, the greater one is written first. -/
theorem orderBy_unsorted : ¬∀ (A : Arith) (get : Text → A.F) (cols : List Column) (rows : List ResultRow), Decimals A get → cols ≠ [] →
    (∀ r ∈ rows, StoredAll A cols r.data r.values) → Sorts (typedLe cols) rows (written A get cols rows) := by
  intro hall
  have hsorts := hall wholeNumbers readWhole idAndName [personRow true 3 "ann", personRow true 5 "ann"] decimals_whole (by decide) (by
    intro r hr
    simp only [List.mem_cons, List.not_mem_nil, or_false] at hr
    rcases hr with rfl | rfl
    all_goals exact ⟨⟨Or.inl rfl, by decide⟩, ⟨rfl, by decide, by decide⟩, trivial⟩)
  have hwritten : written wholeNumbers readWhole idAndName [personRow true 3 "ann", personRow true 5 "ann"] =
      [personRow true 3 "ann", personRow true 5 "ann"] := by decide +kernel
  rw [hwritten] at hsorts
  have hle := (List.pairwise_cons.mp hsorts.pairwise).1 (personRow true 5 "ann") List.mem_cons_self
  revert hle
  decide +kernel

end RedB.Dml
