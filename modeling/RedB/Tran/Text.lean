import Mathlib.Algebra.Group.Int.Defs
import Mathlib.Data.List.Basic
import Mathlib.Data.Nat.Notation
import Mathlib.Data.Int.Notation

/-!
# Texts and numbers

Texts are lists of characters, a character a byte. `toText` writes a number as
`std::to_string` does, `stoi` reads one as `std::stoi` does.
-/

namespace RedB

/-- A text, a character a byte. -/
abbrev Text := List Char

/-- A text is searched character by character. -/
instance (priority := high) decidableBallText (p : Char → Prop) [DecidablePred p] (text : Text) : Decidable (∀ c ∈ text, p c) :=
  List.decidableBAll p text

/-- `std::isspace` -/
def isSpace (c : Char) : Bool := c = ' ' || c = '\t' || c = '\n' || c = '\x0b' || c = '\x0c' || c = '\x0d'

/-- A letter, a digit or an underscore. -/
def isWord (c : Char) : Bool := c.isAlpha || c.isDigit || c = '_'

/-! ### Characters -/

theorem isDigit_iff {c : Char} : c.isDigit = true ↔ 48 ≤ c.toNat ∧ c.toNat ≤ 57 := by
  show (decide (c.val ≥ '0'.val) && decide (c.val ≤ '9'.val)) = true ↔ _
  rw [Bool.and_eq_true, decide_eq_true_iff, decide_eq_true_iff]
  exact and_congr UInt32.le_iff_toNat_le UInt32.le_iff_toNat_le

theorem isUpper_iff {c : Char} : c.isUpper = true ↔ 65 ≤ c.toNat ∧ c.toNat ≤ 90 := by
  show decide (c.val ≥ 'A'.val ∧ c.val ≤ 'Z'.val) = true ↔ _
  rw [decide_eq_true_iff]
  exact and_congr UInt32.le_iff_toNat_le UInt32.le_iff_toNat_le

theorem isLower_iff {c : Char} : c.isLower = true ↔ 97 ≤ c.toNat ∧ c.toNat ≤ 122 := by
  show (decide (c.val ≥ 'a'.val) && decide (c.val ≤ 'z'.val)) = true ↔ _
  rw [Bool.and_eq_true, decide_eq_true_iff, decide_eq_true_iff]
  exact and_congr UInt32.le_iff_toNat_le UInt32.le_iff_toNat_le

theorem isAlpha_iff {c : Char} : c.isAlpha = true ↔ c.isUpper = true ∨ c.isLower = true := by
  show (c.isUpper || c.isLower) = true ↔ _
  rw [Bool.or_eq_true]

theorem isDigit_of_isAlpha {c : Char} (h : c.isAlpha = true) : c.isDigit = false := by
  refine Bool.eq_false_iff.mpr fun hd => ?_
  have hc := isAlpha_iff.mp h
  rw [isUpper_iff, isLower_iff] at hc
  have hd := isDigit_iff.mp hd
  omega

theorem toLower_of_not_isUpper {c : Char} (h : ¬c.isUpper = true) : c.toLower = c :=
  dif_neg fun hc => h (decide_eq_true hc)

theorem toLower_of_isDigit {c : Char} (h : c.isDigit = true) : c.toLower = c := by
  refine toLower_of_not_isUpper fun hu => ?_
  have hd := isDigit_iff.mp h
  have hu := isUpper_iff.mp hu
  omega

theorem toUpper_of_not_isLower {c : Char} (h : ¬c.isLower = true) : c.toUpper = c :=
  dif_neg fun hc => h (Bool.and_eq_true_iff.mpr ⟨decide_eq_true hc.1, decide_eq_true hc.2⟩)

/-! ### Numbers in texts -/

/-- `std::to_string` of a number that is not negative. -/
def toText (n : ℕ) : Text := Nat.toDigits 10 n

/-- `std::to_string` -/
def intToText : ℤ → Text
  | .ofNat n => toText n
  | .negSucc n => '-' :: toText (n + 1)

/-- An integer, if it is an `int32_t`. -/
def int32 (z : ℤ) : Option ℤ := if -2 ^ 31 ≤ z ∧ z < 2 ^ 31 then some z else none

/-- The digits at the front of a text, as a number, if there are any. -/
def leadingNat (text : Text) : Option ℕ :=
  if text.takeWhile Char.isDigit = [] then none else some (Nat.ofDigitChars 10 (text.takeWhile Char.isDigit) 0)

/-- `std::stoi`: nothing if it throws. What follows the digits is ignored. -/
def stoi (text : Text) : Option ℤ :=
  match text.dropWhile isSpace with
  | '-' :: rest => (leadingNat rest).bind fun n => int32 (-(n : ℤ))
  | '+' :: rest => (leadingNat rest).bind fun n => int32 n
  | rest => (leadingNat rest).bind fun n => int32 n

theorem toText_digits {n : ℕ} {c : Char} (h : c ∈ toText n) : c.isDigit = true :=
  Nat.isDigit_of_mem_toDigits (by decide) (Nat.le_refl _) h

theorem toText_ne_nil (n : ℕ) : toText n ≠ [] := Nat.toDigits_ne_nil

theorem takeWhile_digits {ds : Text} (h : ∀ c ∈ ds, c.isDigit = true) : ds.takeWhile Char.isDigit = ds := by
  rw [← List.append_nil ds, List.takeWhile_append_of_pos (by simpa using h)]
  rfl

theorem leadingNat_digits {ds : Text} (hne : ds ≠ []) (h : ∀ c ∈ ds, c.isDigit = true) :
    leadingNat ds = some (Nat.ofDigitChars 10 ds 0) := by
  rw [leadingNat, takeWhile_digits h, if_neg hne]

theorem leadingNat_toText (n : ℕ) : leadingNat (toText n) = some n := by
  rw [leadingNat_digits (toText_ne_nil n) fun c hc => toText_digits hc, toText, Nat.ofDigitChars_ten_toDigits]

theorem isSpace_of_isDigit {c : Char} (h : c.isDigit = true) : isSpace c = false := by
  simp only [Char.isDigit, Bool.and_eq_true, decide_eq_true_eq, ge_iff_le] at h
  simp only [isSpace, Bool.or_eq_false_iff, decide_eq_false_iff_not]
  refine ⟨⟨⟨⟨⟨?_, ?_⟩, ?_⟩, ?_⟩, ?_⟩, ?_⟩ <;> rintro rfl <;> exact absurd h.1 (by decide)

/-- A text that begins with a digit has no sign. -/
theorem stoi_digit {d : Char} (hd : d.isDigit = true) (text : Text) :
    stoi (d :: text) = (leadingNat (d :: text)).bind fun n => int32 n := by
  have hdrop : (d :: text).dropWhile isSpace = d :: text := by
    rw [List.dropWhile_cons, isSpace_of_isDigit hd]
    rfl
  rw [stoi, hdrop]
  split
  · cases ‹_ :: _ = _›
    cases hd
  · cases ‹_ :: _ = _›
    cases hd
  · rfl

/-- A text of digits is read as what it says, if that is an `int32_t`. -/
theorem stoi_digits {ds : Text} (hne : ds ≠ []) (h : ∀ c ∈ ds, c.isDigit = true) :
    stoi ds = int32 (Nat.ofDigitChars 10 ds 0) := by
  obtain ⟨d, ds, rfl⟩ := List.exists_cons_of_ne_nil hne
  rw [stoi_digit (h d (List.mem_cons_self ..)), leadingNat_digits hne h, Option.bind_some]

/-- What has been written is read. -/
theorem stoi_toText (n : ℕ) : stoi (toText n) = int32 n := by
  rw [stoi_digits (toText_ne_nil n) fun c hc => toText_digits hc, toText, Nat.ofDigitChars_ten_toDigits]

theorem stoi_neg (text : Text) : stoi ('-' :: text) = (leadingNat text).bind fun n => int32 (-(n : ℤ)) := by
  rw [stoi, List.dropWhile_cons_of_neg (by decide)]
  simp only

theorem stoi_intToText (z : ℤ) : stoi (intToText z) = int32 z := by
  cases z with
  | ofNat n =>
    rw [intToText, stoi_toText, Int.ofNat_eq_natCast]
  | negSucc n =>
    rw [intToText, stoi_neg, leadingNat_toText, Option.bind_some, Int.negSucc_eq, Int.natCast_succ]

theorem int32_eq_some {z z' : ℤ} : int32 z = some z' ↔ (-2 ^ 31 ≤ z ∧ z < 2 ^ 31) ∧ z = z' := by
  rw [int32, Option.ite_none_right_eq_some, Option.some.injEq]

/-- A number that has been read as an `int32_t` is one. -/
theorem stoi_range {text : Text} {z : ℤ} (h : stoi text = some z) : -2 ^ 31 ≤ z ∧ z < 2 ^ 31 := by
  have : ∃ z', int32 z' = some z := by
    unfold stoi at h
    split at h <;>
      · obtain ⟨n, -, h⟩ := Option.bind_eq_some_iff.mp h
        exact ⟨_, h⟩
  obtain ⟨z', h⟩ := this
  obtain ⟨hr, rfl⟩ := int32_eq_some.mp h
  exact hr

/-- A word is not read as a number. -/
theorem stoi_word {c : Char} {text : Text} (h : c.isAlpha = true) : stoi (c :: text) = none := by
  have hne : ∀ c', c'.isAlpha = false → c ≠ c' := by
    rintro c' h' rfl
    rw [h] at h'
    cases h'
  have hspace : isSpace c = false := by
    simp only [isSpace, Bool.or_eq_false_iff, decide_eq_false_iff_not]
    exact ⟨⟨⟨⟨⟨hne _ rfl, hne _ rfl⟩, hne _ rfl⟩, hne _ rfl⟩, hne _ rfl⟩, hne _ rfl⟩
  rw [stoi, List.dropWhile_cons_of_neg (by rw [hspace]; decide)]
  split
  · rename_i e
    exact absurd (List.cons.inj e).1 (hne '-' rfl)
  · rename_i e
    exact absurd (List.cons.inj e).1 (hne '+' rfl)
  · rw [leadingNat, List.takeWhile_cons_of_neg (by rw [isDigit_of_isAlpha h]; decide), if_pos rfl, Option.bind_none]

end RedB
