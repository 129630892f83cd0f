import RedB.Dml.Codec
import Mathlib.Data.Nat.Digits.Defs

/-!
# The widths of values

A column checks the text that was typed and stores another one. The stored text is longer than the
column if a number has been written so, with the digits behind the point or from a counter
(`Column.excess`), and otherwise it is not (`excess_take`). In a key each value has the width of its
column, or more if it is longer (`length_makeKey`).
-/

namespace RedB.Dml

open Tran (lower)

variable (A : Arith)

/-- By how much the text that is stored for a value is longer than its column. The size of a value is
stored in a byte. -/
def Column.excess (col : Column) (value : Text) : ℕ :=
  match col.type, col.isAutoInc with
  | .float, false =>
      if value = "null".toList then 0 else ((A.stof value).map fun x => (A.fixed col.prec x).length % 256 - col.size).getD 0
  | .float, true | .int, true => (intToText col.autoInc).length % 256 - col.size
  | _, _ => 0

/-- By how much the value of the column of this name is too long. -/
def excessOf (columns : List Column) (values : List Text) (name : Text) : ℕ :=
  match columnPos columns name with
  | some i => (columns[i]?.bind fun col => values[i]?.map (col.excess A)).getD 0
  | none => 0

/-- The size of the column of this name. -/
def widthOf (columns : List Column) (name : Text) : ℕ :=
  match columnPos columns name with
  | some i => (columns[i]?.map Column.size).getD 0
  | none => 0

variable {A}

/-! ### Numbers are not written longer than they were typed -/

theorem ofDigitChars_lt {ds : Text} (h : ∀ c ∈ ds, c.isDigit = true) : Nat.ofDigitChars 10 ds 0 < 10 ^ ds.length := by
  induction ds with
  | nil => decide
  | cons d ds ih =>
    obtain ⟨-, hd⟩ := isDigit_iff.mp (h d (List.mem_cons_self ..))
    have hle : d.toNat - '0'.toNat ≤ 9 := by
      have hzero : '0'.toNat = 48 := rfl
      omega
    have ih := ih fun c hc => h c (List.mem_cons_of_mem _ hc)
    rw [Nat.ofDigitChars_cons, Nat.ofDigitChars_eq_ofDigitChars_zero, Nat.mul_zero, Nat.zero_add, List.length_cons, Nat.pow_succ]
    calc 10 ^ ds.length * (d.toNat - '0'.toNat) + Nat.ofDigitChars 10 ds 0
        < 10 ^ ds.length * 9 + 10 ^ ds.length := Nat.add_lt_add_of_le_of_lt (Nat.mul_le_mul_left _ hle) ih
      _ = 10 ^ ds.length * 10 := by omega

theorem length_toText_le {ds : Text} (hne : ds ≠ []) (h : ∀ c ∈ ds, c.isDigit = true) :
    (toText (Nat.ofDigitChars 10 ds 0)).length ≤ ds.length :=
  Nat.toDigits_length _ _ _ (List.length_pos_iff.mpr hne) (ofDigitChars_lt h)

theorem leadingNat_length {text : Text} {n : ℕ} (h : leadingNat text = some n) : (toText n).length ≤ text.length := by
  rw [leadingNat] at h
  split at h
  · cases h
  · rename_i hne
    obtain rfl := Option.some.inj h
    refine (length_toText_le hne fun c hc => ?_).trans (List.takeWhile_sublist _).length_le
    exact List.all_eq_true.mp List.all_takeWhile c hc

theorem length_intToText_neg_le (n : ℕ) : (intToText (-(n : ℤ))).length ≤ (toText n).length + 1 := by
  cases n with
  | zero => decide
  | succ n => exact le_of_eq rfl

theorem length_intToText_le {text : Text} {z : ℤ} (h : stoi text = some z) : (intToText z).length ≤ text.length := by
  have hdrop := (List.dropWhile_sublist (l := text) isSpace).length_le
  unfold stoi at h
  split at h
  · rename_i rest hrest
    obtain ⟨n, hn, hz⟩ := Option.bind_eq_some_iff.mp h
    obtain ⟨-, rfl⟩ := int32_eq_some.mp hz
    have hlen := leadingNat_length hn
    have hneg := length_intToText_neg_le n
    rw [hrest, List.length_cons] at hdrop
    omega
  · rename_i rest hrest
    obtain ⟨n, hn, hz⟩ := Option.bind_eq_some_iff.mp h
    obtain ⟨-, rfl⟩ := int32_eq_some.mp hz
    rw [hrest, List.length_cons] at hdrop
    exact (leadingNat_length hn).trans (Nat.le_of_succ_le hdrop)
  · obtain ⟨n, hn, hz⟩ := Option.bind_eq_some_iff.mp h
    obtain ⟨-, rfl⟩ := int32_eq_some.mp hz
    exact (leadingNat_length hn).trans hdrop

/-! ### Stored texts -/

/-- A text that has been filled up to the size of its column is as long as before, or as the column. -/
theorem excess_padLeft (n : ℕ) (c : Char) (text : Text) : (padLeft n c text).length % 256 - n = text.length % 256 - n := by
  rw [length_padLeft]
  rcases le_total text.length n with h | h
  · rw [max_eq_left h]
    have h1 := Nat.mod_le n 256
    have h2 := Nat.mod_le text.length 256
    omega
  · rw [max_eq_right h]

theorem excess_of_le {n : ℕ} {text : Text} (h : text.length ≤ n) : text.length % 256 - n = 0 := by
  have := Nat.mod_le text.length 256
  omega

/-- What a column that counts stores. -/
theorem excess_format_counter {col : Column} {value v text : Text} (hauto : col.isAutoInc = true) (hv : v.length ≤ col.size)
    (h : col.format A v = some text) : text.length % 256 - col.size = col.excess A value := by
  rw [Column.format, if_pos hauto] at h
  unfold Column.excess
  rw [hauto]
  cases htype : col.type <;> rw [htype] at h <;> obtain rfl := Option.some.inj h
  case float | int => exact excess_padLeft ..
  all_goals exact excess_of_le hv

/-- What a column of a key stores. -/
theorem excess_format_key {col : Column} {v text : Text} (hauto : col.isAutoInc = false) (hkey : (col.isPrimary || col.isUnique) = true)
    (hv : v.length ≤ col.size) (h : col.format A v = some text) (hnull : v ≠ "null".toList) :
    text.length % 256 - col.size = col.excess A v := by
  rw [Column.format, if_neg (by rw [hauto]; exact Bool.false_ne_true), if_pos hkey] at h
  unfold Column.excess
  rw [hauto]
  cases htype : col.type <;> rw [htype] at h
  case float =>
    obtain ⟨x, hx, rfl⟩ := Option.map_eq_some_iff.mp h
    simp only [if_neg hnull, hx, Option.map_some, Option.getD_some]
    exact excess_padLeft ..
  case int =>
    obtain ⟨z, hz, rfl⟩ := Option.map_eq_some_iff.mp h
    refine excess_of_le ?_
    rw [length_padLeft]
    exact max_le le_rfl ((length_intToText_le hz).trans hv)
  all_goals
    obtain rfl := Option.some.inj h
    exact excess_of_le hv

theorem length_of_lower {v text : Text} (h : lower v = text) : v.length = text.length := by
  rw [← h, lower, List.length_map]

/-- What another column stores. -/
theorem excess_format_other {col : Column} {v text : Text} (hauto : col.isAutoInc = false) (hkey : ¬(col.isPrimary || col.isUnique) = true)
    (hv : v.length ≤ col.size) (h : col.format A v = some text) (hnull : v ≠ "null".toList) :
    text.length % 256 - col.size = col.excess A v := by
  rw [Column.format, if_neg (by rw [hauto]; exact Bool.false_ne_true), if_neg hkey] at h
  unfold Column.excess
  rw [hauto]
  cases htype : col.type <;> rw [htype] at h
  case float =>
    obtain rfl := Option.some.inj h
    simp only [if_neg hnull]
    cases A.stof v with
    | none => exact Nat.zero_sub _
    | some x => rfl
  case int =>
    obtain rfl := Option.some.inj h
    refine excess_of_le ?_
    cases hz : stoi v with
    | none => exact Nat.zero_le _
    | some z => exact (length_intToText_le hz).trans hv
  case boolean =>
    refine excess_of_le ?_
    simp only at h
    split at h
    · rename_i htrue
      obtain rfl := Option.some.inj h
      exact (show 1 ≤ "true".toList.length by decide).trans ((length_of_lower htrue).ge.trans hv)
    · split at h
      · rename_i hfalse
        obtain rfl := Option.some.inj h
        exact (show 1 ≤ "false".toList.length by decide).trans ((length_of_lower hfalse).ge.trans hv)
      · obtain rfl := Option.some.inj h
        exact Nat.zero_le _
  all_goals
    obtain rfl := Option.some.inj h
    exact excess_of_le hv

/-- There is nothing in a column without a value, if it does not count. -/
theorem format_nil {col : Column} {text : Text} (hauto : col.isAutoInc = false) (h : col.format A [] = some text) : text = [] := by
  rw [Column.format, if_neg (by rw [hauto]; exact Bool.false_ne_true)] at h
  have hz : stoi [] = none := rfl
  split at h
  · cases htype : col.type <;> rw [htype] at h <;> simp only [A.stof_nil, hz, Option.map_none] at h <;>
      first | exact (Option.some.inj h).symm | cases h
  · cases htype : col.type <;> rw [htype] at h <;> simp only [A.stof_nil, hz, Option.map_none, Option.getD_none] at h <;>
      exact (Option.some.inj h).symm

/-- By how much a stored text is too long. -/
theorem excess_take {col : Column} {value text : Text} (h : col.take A value = some text) :
    text.length % 256 - col.size = col.excess A value := by
  rw [Column.take] at h
  split at h
  swap
  · cases h
  rename_i haccepts
  rw [Column.accepts, Bool.and_eq_true, decide_eq_true_eq] at haccepts
  obtain ⟨-, hlen⟩ := haccepts
  rw [Column.store] at h
  cases hauto : col.isAutoInc with
  | true =>
    refine excess_format_counter hauto ?_ h
    split
    · exact Nat.zero_le _
    · exact hlen
  | false =>
    by_cases hnull : value = "null".toList
    · rw [if_pos hnull] at h
      rw [format_nil hauto h]
      unfold Column.excess
      rw [hauto]
      cases col.type <;> simp [hnull]
    · rw [if_neg hnull] at h
      by_cases hkey : (col.isPrimary || col.isUnique) = true
      · exact excess_format_key hauto hkey hlen h hnull
      · exact excess_format_other hauto hkey hlen h hnull

/-! ### Values of a row -/

theorem length_valueAt {texts : List Text} {i : ℕ} (hi : i < texts.length) :
    ((Row.ofTexts texts).valueAt i).length = texts[i].length % 256 := by
  have hsize : (Row.ofTexts texts).sizes.getD i 0 = texts[i].length % 256 := by
    rw [Row.ofTexts, List.getD_eq_getElem?_getD, List.getElem?_map, List.getElem?_eq_getElem hi]
    rfl
  have hsum : ((Row.ofTexts texts).sizes.take (i + 1)).sum ≤ texts.flatten.length := by
    rw [Row.ofTexts, List.length_flatten, ← List.map_take, ← List.take_append_drop (i + 1) texts, List.map_append, List.sum_append,
      List.take_append_drop]
    exact (List.sum_le_sum fun text _ => Nat.mod_le ..).trans (Nat.le_add_right ..)
  rw [List.take_add_one, List.sum_append] at hsum
  have hopt : ((Row.ofTexts texts).sizes[i]?.toList).sum = texts[i].length % 256 := by
    rw [Row.ofTexts, List.getElem?_map, List.getElem?_eq_getElem hi]
    simp
  rw [Row.valueAt, List.length_take, List.length_drop, hsize]
  show min _ (texts.flatten.length - _) = _
  omega

/-- Each text is what its column makes of its value. -/
theorem storeAll_get {cols : List Column} {values texts : List Text} (h : storeAll A cols values = some texts) :
    texts.length = cols.length ∧ ∀ i (hi : i < texts.length) col, cols[i]? = some col →
      ∃ value, values[i]? = some value ∧ col.take A value = some texts[i] := by
  induction cols generalizing values texts with
  | nil =>
    obtain rfl := Option.some.inj h
    exact ⟨rfl, fun i hi => absurd hi (Nat.not_lt_zero i)⟩
  | cons col cols ih =>
    cases values with
    | nil => cases h
    | cons value values =>
      obtain ⟨text, htext, h⟩ := Option.bind_eq_some_iff.mp h
      obtain ⟨texts', htexts, h⟩ := Option.bind_eq_some_iff.mp h
      obtain rfl := Option.some.inj h
      obtain ⟨hlen, hget⟩ := ih htexts
      refine ⟨congrArg (· + 1) hlen, fun i hi c hc => ?_⟩
      cases i with
      | zero =>
        obtain rfl := Option.some.inj hc
        exact ⟨value, rfl, htext⟩
      | succ i => exact hget i (Nat.lt_of_succ_lt_succ hi) c hc

theorem length_keyPart (col : Column) (value : Text) : (col.keyPart value).length = max col.size value.length := by
  rw [Column.keyPart]
  split
  · exact length_padLeft ..
  · exact length_padLeft ..
  · exact length_padRight ..

/-- The key of a row is as long as its columns, with what is too long in them. -/
theorem length_makeKey {columns : List Column} {values : List Text} {r : Row} (h : makeRow A columns values = some r) (names : List Text) :
    (makeKey columns names r).length = (names.map fun name => widthOf columns name + excessOf A columns values name).sum := by
  obtain ⟨texts, hstore, hr⟩ := Option.bind_eq_some_iff.mp h
  split at hr
  swap
  · cases hr
  obtain rfl := Option.some.inj hr
  obtain ⟨hlen, hget⟩ := storeAll_get hstore
  rw [makeKey, List.length_flatMap]
  congr 1
  refine List.map_congr_left fun name _ => ?_
  rw [widthOf, excessOf]
  cases hi : columnPos columns name with
  | none => rfl
  | some i =>
    obtain ⟨hlt, -⟩ := List.findIdx?_eq_some_iff_getElem.mp hi
    have hlt' : i < texts.length := by rwa [hlen]
    obtain ⟨value, hvalue, htake⟩ := hget i hlt' _ (List.getElem?_eq_getElem hlt)
    simp only [List.getElem?_eq_getElem hlt, hvalue, Option.map_some, Option.getD_some, Option.bind_some]
    rw [length_keyPart, length_valueAt hlt', ← excess_take htake]
    omega

end RedB.Dml
