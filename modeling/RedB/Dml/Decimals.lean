import RedB.Dml.Width
import Mathlib.Data.List.Lex
import Mathlib.Data.Char

/-!
# The order of padded numbers

Decimal numbers with a fixed number of digits behind the point, to the right of a field of zeros. Texts
of fields are compared character by character: numbers that are not negative are in their order, and
negative ones in front of them; of two negative numbers the one with more digits comes first, and of two
with as many digits the wrong one (`field_lt_iff`).
-/

namespace RedB.Dml

/-- The digits of a number that is `n` in units of its last digit. -/
def digits (prec n : ℕ) : Text :=
  if prec = 0 then toText n else toText (n / 10 ^ prec) ++ '.' :: padLeft prec '0' (toText (n % 10 ^ prec))

/-- A decimal number. There is a negative zero. -/
def decimal (prec : ℕ) (neg : Bool) (n : ℕ) : Text := if neg then '-' :: digits prec n else digits prec n

/-- A number in a field. -/
def field (width prec : ℕ) (neg : Bool) (n : ℕ) : Text := padLeft width '0' (decimal prec neg n)

/-! ### Texts of one length -/

/-- Texts are compared by their first parts, and by the others if these are equal. -/
theorem append_lt_append_iff {x y r s : Text} (h : x.length = y.length) : x ++ r < y ++ s ↔ x < y ∨ x = y ∧ r < s := by
  induction x generalizing y with
  | nil =>
    obtain rfl := List.length_eq_zero_iff.mp h.symm
    simp
  | cons a x ih =>
    cases y with
    | nil => cases h
    | cons b y =>
      rw [List.cons_append, List.cons_append, List.cons_lt_cons_iff, List.cons_lt_cons_iff, ih (Nat.succ.inj h), List.cons.injEq]
      constructor
      · rintro (hab | ⟨rfl, hxy | ⟨rfl, hrs⟩⟩)
        · exact Or.inl (Or.inl hab)
        · exact Or.inl (Or.inr ⟨rfl, hxy⟩)
        · exact Or.inr ⟨⟨rfl, rfl⟩, hrs⟩
      · rintro ((hab | ⟨rfl, hxy⟩) | ⟨⟨rfl, rfl⟩, hrs⟩)
        · exact Or.inl hab
        · exact Or.inr ⟨rfl, Or.inl hxy⟩
        · exact Or.inr ⟨rfl, Or.inr ⟨rfl, hrs⟩⟩

theorem append_left_lt_iff (x : Text) {r s : Text} : x ++ r < x ++ s ↔ r < s := by
  rw [append_lt_append_iff rfl]
  simp

/-- All characters are digits. -/
def AllDigits (text : Text) : Prop := ∀ c ∈ text, c.isDigit = true

theorem allDigits_padLeft {n : ℕ} {text : Text} (h : AllDigits text) : AllDigits (padLeft n '0' text) := by
  intro c hc
  rcases List.mem_append.mp hc with hc | hc
  · rw [List.eq_of_mem_replicate hc]
    decide
  · exact h c hc

theorem allDigits_toText (n : ℕ) : AllDigits (toText n) := fun _ hc => toText_digits hc

theorem char_lt_iff {c d : Char} : c < d ↔ c.toNat < d.toNat := Iff.rfl

theorem ofDigitChars_cons_zero (c : Char) (cs : Text) :
    Nat.ofDigitChars 10 (c :: cs) 0 = 10 ^ cs.length * (c.toNat - 48) + Nat.ofDigitChars 10 cs 0 := by
  rw [Nat.ofDigitChars_cons, Nat.ofDigitChars_eq_ofDigitChars_zero, Nat.mul_zero, Nat.zero_add]
  rfl

/-- Digits of one length are in the order of their numbers. -/
theorem digits_lt_iff {x y : Text} (hx : AllDigits x) (hy : AllDigits y) (h : x.length = y.length) :
    x < y ↔ Nat.ofDigitChars 10 x 0 < Nat.ofDigitChars 10 y 0 := by
  induction x generalizing y with
  | nil =>
    obtain rfl := List.length_eq_zero_iff.mp h.symm
    simp
  | cons a x ih =>
    cases y with
    | nil => cases h
    | cons b y =>
      have hx' : AllDigits x := fun c hc => hx c (List.mem_cons_of_mem _ hc)
      have hy' : AllDigits y := fun c hc => hy c (List.mem_cons_of_mem _ hc)
      have hl : x.length = y.length := Nat.succ.inj h
      have hxlt := ofDigitChars_lt hx'
      have hylt := ofDigitChars_lt hy'
      obtain ⟨ha, -⟩ := isDigit_iff.mp (hx a List.mem_cons_self)
      obtain ⟨hb, -⟩ := isDigit_iff.mp (hy b List.mem_cons_self)
      rw [List.cons_lt_cons_iff, ih hx' hy' hl, char_lt_iff, ofDigitChars_cons_zero, ofDigitChars_cons_zero]
      rw [← hl] at hylt ⊢
      constructor
      · rintro (hab | ⟨rfl, hxy⟩)
        · have hstep : 10 ^ x.length * (a.toNat - 48 + 1) ≤ 10 ^ x.length * (b.toNat - 48) := Nat.mul_le_mul_left _ (by omega)
          rw [Nat.mul_add, Nat.mul_one] at hstep
          omega
        · omega
      · intro hlt
        rcases Nat.lt_trichotomy a.toNat b.toNat with hab | hab | hab
        · exact Or.inl hab
        · have hchar : a = b := Char.toNat_inj.mp hab
          subst hchar
          exact Or.inr ⟨rfl, by omega⟩
        · have hstep : 10 ^ x.length * (b.toNat - 48 + 1) ≤ 10 ^ x.length * (a.toNat - 48) := Nat.mul_le_mul_left _ (by omega)
          rw [Nat.mul_add, Nat.mul_one] at hstep
          omega

theorem ofDigitChars_padLeft_toText (w n : ℕ) : Nat.ofDigitChars 10 (padLeft w '0' (toText n)) 0 = n := by
  rw [padLeft, Nat.ofDigitChars_append, Nat.ofDigitChars_replicate_zero, Nat.mul_zero, toText, Nat.ofDigitChars_ten_toDigits]

/-- Whole numbers in fields of one width. -/
theorem padLeft_lt_iff {w n m : ℕ} (hn : (toText n).length ≤ w) (hm : (toText m).length ≤ w) :
    padLeft w '0' (toText n) < padLeft w '0' (toText m) ↔ n < m := by
  rw [digits_lt_iff (allDigits_padLeft (allDigits_toText n)) (allDigits_padLeft (allDigits_toText m))
    (by rw [length_padLeft_eq hn, length_padLeft_eq hm]), ofDigitChars_padLeft_toText, ofDigitChars_padLeft_toText]

theorem padLeft_toText_eq_iff {w n m : ℕ} : padLeft w '0' (toText n) = padLeft w '0' (toText m) ↔ n = m := by
  refine ⟨fun h => ?_, fun h => h ▸ rfl⟩
  have := congrArg (fun text => Nat.ofDigitChars 10 text 0) h
  simpa only [ofDigitChars_padLeft_toText] using this

/-! ### Numbers with a point -/

theorem length_toText_le_of_le {n m : ℕ} (h : n ≤ m) : (toText n).length ≤ (toText m).length := by
  have hpos : 0 < (toText m).length := Nat.length_toDigits_pos
  have hm : m < 10 ^ (toText m).length := (Nat.length_toDigits_le_iff (by decide) hpos).mp le_rfl
  exact (Nat.length_toDigits_le_iff (by decide) hpos).mpr (lt_of_le_of_lt h hm)

theorem length_fraction (prec n : ℕ) (hp : prec ≠ 0) : (toText (n % 10 ^ prec)).length ≤ prec :=
  (Nat.length_toDigits_le_iff (by decide) (Nat.pos_of_ne_zero hp)).mpr (Nat.mod_lt _ (Nat.pow_pos (by decide)))

theorem length_digits (prec n : ℕ) :
    (digits prec n).length = if prec = 0 then (toText n).length else (toText (n / 10 ^ prec)).length + 1 + prec := by
  rw [digits]
  split
  · rfl
  · rename_i hp
    rw [List.length_append, List.length_cons, length_padLeft_eq (length_fraction prec n hp)]
    omega

/-- A greater number has no fewer digits. -/
theorem length_digits_le {prec n m : ℕ} (h : n ≤ m) : (digits prec n).length ≤ (digits prec m).length := by
  rw [length_digits, length_digits]
  split
  · exact length_toText_le_of_le h
  · have := length_toText_le_of_le (Nat.div_le_div_right (c := 10 ^ prec) h)
    omega

theorem padLeft_append (w : ℕ) (x y : Text) : padLeft w '0' (x ++ y) = padLeft (w - y.length) '0' x ++ y := by
  rw [padLeft, padLeft, List.length_append, List.append_assoc, Nat.sub_sub, Nat.add_comm x.length]

/-- The parts before and behind the point. -/
theorem padLeft_digits (w : ℕ) {prec : ℕ} (hp : prec ≠ 0) (n : ℕ) : padLeft w '0' (digits prec n) =
    padLeft (w - (prec + 1)) '0' (toText (n / 10 ^ prec)) ++ ('.' :: padLeft prec '0' (toText (n % 10 ^ prec))) := by
  have hl : ('.' :: padLeft prec '0' (toText (n % 10 ^ prec))).length = prec + 1 := by
    rw [List.length_cons, length_padLeft_eq (length_fraction prec n hp)]
  rw [digits, if_neg hp, padLeft_append, hl]

theorem length_whole_le {w prec n : ℕ} (hp : prec ≠ 0) (hw : (digits prec n).length ≤ w) :
    (toText (n / 10 ^ prec)).length ≤ w - (prec + 1) := by
  rw [length_digits, if_neg hp] at hw
  omega

/-- A number is compared by what is before the point, and by what is behind it if that is equal. -/
theorem div_mod_lt_iff {n m k : ℕ} : n / k < m / k ∨ n / k = m / k ∧ n % k < m % k ↔ n < m := by
  have hn := Nat.div_add_mod n k
  have hm := Nat.div_add_mod m k
  constructor
  · rintro (h | ⟨h, h'⟩)
    · exact Nat.lt_of_div_lt_div h
    · rw [h] at hn
      omega
  · intro h
    rcases Nat.lt_or_ge (n / k) (m / k) with hlt | hge
    · exact Or.inl hlt
    · have heq := le_antisymm (Nat.div_le_div_right (c := k) h.le) hge
      refine Or.inr ⟨heq, ?_⟩
      rw [heq] at hn
      omega

/-- Numbers that are not negative are in their order. -/
theorem padLeft_digits_lt_iff {w prec n m : ℕ} (hn : (digits prec n).length ≤ w) (hm : (digits prec m).length ≤ w) :
    padLeft w '0' (digits prec n) < padLeft w '0' (digits prec m) ↔ n < m := by
  by_cases hp : prec = 0
  · subst hp
    exact padLeft_lt_iff hn hm
  · have hwn := length_whole_le hp hn
    have hwm := length_whole_le hp hm
    rw [padLeft_digits w hp, padLeft_digits w hp, append_lt_append_iff (by rw [length_padLeft_eq hwn, length_padLeft_eq hwm]),
      padLeft_lt_iff hwn hwm, padLeft_toText_eq_iff, List.cons_lt_cons_iff,
      padLeft_lt_iff (length_fraction prec n hp) (length_fraction prec m hp)]
    simp only [lt_irrefl, false_or, true_and]
    exact div_mod_lt_iff

/-! ### Fields -/

variable {w prec n m : ℕ}

theorem length_decimal (prec : ℕ) (neg : Bool) (n : ℕ) :
    (decimal prec neg n).length = (if neg then 1 else 0) + (digits prec n).length := by
  rw [decimal]
  cases neg
  · exact (Nat.zero_add _).symm
  · exact Nat.add_comm _ _

theorem length_field {neg : Bool} (h : (decimal prec neg n).length ≤ w) : (field w prec neg n).length = w := length_padLeft_eq h

/-- A negative number in its field. -/
theorem field_true (w prec n : ℕ) :
    field w prec true n = List.replicate (w - (digits prec n).length - 1) '0' ++ '-' :: digits prec n := by
  rw [field, padLeft, length_decimal, if_pos rfl, Nat.add_comm, Nat.sub_sub]
  rfl

/-- A negative number comes in front of every text of as many digits. -/
theorem lt_of_digits {k : ℕ} {x y r : Text} (hx : AllDigits x) (hl : x.length = k + 1) : List.replicate k '0' ++ '-' :: r < x ++ y := by
  induction k generalizing x with
  | zero =>
    obtain ⟨c, rfl⟩ := List.length_eq_one_iff.mp hl
    obtain ⟨hc, -⟩ := isDigit_iff.mp (hx c List.mem_cons_self)
    refine List.cons_lt_cons_iff.mpr (Or.inl (char_lt_iff.mpr ?_))
    exact lt_of_lt_of_le (by decide) hc
  | succ k ih =>
    cases x with
    | nil => cases hl
    | cons c x =>
      obtain ⟨hc, -⟩ := isDigit_iff.mp (hx c List.mem_cons_self)
      have hlt := ih (x := x) (fun d hd => hx d (List.mem_cons_of_mem _ hd)) (Nat.succ.inj hl)
      rw [List.replicate_succ, List.cons_append, List.cons_append, List.cons_lt_cons_iff]
      rcases Nat.lt_or_eq_of_le hc with hlt' | heq
      · exact Or.inl (char_lt_iff.mpr hlt')
      · exact Or.inr ⟨Char.toNat_inj.mp heq, hlt⟩

/-- Negative numbers are in front of all others. -/
theorem field_true_lt_false (hn : (decimal prec true n).length ≤ w) (hm : (decimal prec false m).length ≤ w) :
    field w prec true n < field w prec false m := by
  rw [field_true]
  rw [length_decimal, if_pos rfl] at hn
  have hm' : (digits prec m).length ≤ w := by
    rw [length_decimal] at hm
    simpa using hm
  show _ < padLeft w '0' (digits prec m)
  by_cases hp : prec = 0
  · subst hp
    have hall : AllDigits (padLeft w '0' (digits 0 m)) := allDigits_padLeft (allDigits_toText m)
    have hpos : 0 < (digits 0 n).length := Nat.length_toDigits_pos
    rw [← List.take_append_drop (w - (digits 0 n).length - 1 + 1) (padLeft w '0' (digits 0 m))]
    refine lt_of_digits (fun c hc => hall c (List.mem_of_mem_take hc)) ?_
    rw [List.length_take, length_padLeft_eq hm']
    omega
  · rw [padLeft_digits w hp]
    have hwhole := length_whole_le hp hm'
    have hall : AllDigits (padLeft (w - (prec + 1)) '0' (toText (m / 10 ^ prec))) := allDigits_padLeft (allDigits_toText _)
    have hpos : 0 < (toText (n / 10 ^ prec)).length := Nat.length_toDigits_pos
    have hlen : (digits prec n).length = (toText (n / 10 ^ prec)).length + 1 + prec := by rw [length_digits, if_neg hp]
    rw [← List.take_append_drop (w - (digits prec n).length - 1 + 1) (padLeft (w - (prec + 1)) '0' (toText (m / 10 ^ prec))),
      List.append_assoc]
    refine lt_of_digits (fun c hc => hall c (List.mem_of_mem_take hc)) ?_
    rw [List.length_take, length_padLeft_eq hwhole]
    omega

theorem replicate_lt {k l : ℕ} {r s : Text} (h : k < l) : List.replicate k '0' ++ '-' :: r < List.replicate l '0' ++ s := by
  obtain ⟨d, rfl⟩ := Nat.exists_eq_add_of_lt h
  have hsplit : List.replicate (k + d + 1) '0' ++ s = List.replicate (k + 1) '0' ++ (List.replicate d '0' ++ s) := by
    rw [← List.append_assoc, List.replicate_append_replicate]
    congr 2
    omega
  rw [hsplit]
  exact lt_of_digits (fun c hc => by rw [List.eq_of_mem_replicate hc]; decide) List.length_replicate

/-- Of two negative numbers the one with more digits comes first, and of two with as many digits the
one that is closer to zero. -/
theorem field_true_lt_true (hn : (decimal prec true n).length ≤ w) (hm : (decimal prec true m).length ≤ w) :
    field w prec true n < field w prec true m ↔
      if (digits prec n).length = (digits prec m).length then n < m else m < n := by
  rw [field_true, field_true]
  rw [length_decimal, if_pos rfl] at hn hm
  rcases Nat.lt_trichotomy (digits prec n).length (digits prec m).length with h | h | h
  · have hnm : n < m := by
      by_contra hle
      exact absurd (@length_digits_le prec _ _ (Nat.not_lt.mp hle)) (by omega)
    rw [if_neg (by omega)]
    exact iff_of_false (lt_asymm (replicate_lt (by omega))) (by omega)
  · rw [if_pos h, h, append_left_lt_iff, List.cons_lt_cons_iff]
    simp only [lt_irrefl, false_or, true_and]
    have hself : ∀ {k}, (digits prec k).length = (digits prec m).length →
        padLeft (digits prec m).length '0' (digits prec k) = digits prec k := by
      intro k hk
      rw [padLeft, hk, Nat.sub_self]
      rfl
    rw [← padLeft_digits_lt_iff h.le le_rfl, hself h, hself rfl]
  · have hnm : m < n := by
      by_contra hle
      exact absurd (@length_digits_le prec _ _ (Nat.not_lt.mp hle)) (by omega)
    rw [if_neg (by omega)]
    exact iff_of_true (replicate_lt (by omega)) hnm

/-- The order of numbers in fields of one width. -/
theorem field_lt_iff {s t : Bool} (hn : (decimal prec s n).length ≤ w) (hm : (decimal prec t m).length ≤ w) :
    field w prec s n < field w prec t m ↔
      match s, t with
      | false, false => n < m
      | false, true => False
      | true, false => True
      | true, true => if (digits prec n).length = (digits prec m).length then n < m else m < n := by
  cases s <;> cases t
  · rw [length_decimal] at hn hm
    exact padLeft_digits_lt_iff (by simpa using hn) (by simpa using hm)
  · exact iff_of_false (lt_asymm (field_true_lt_false hm hn)) id
  · exact iff_of_true (field_true_lt_false hn hm) trivial
  · exact field_true_lt_true hn hm

/-- Different numbers have different fields. -/
theorem field_inj {s t : Bool} (hn : (decimal prec s n).length ≤ w) (hm : (decimal prec t m).length ≤ w)
    (h : field w prec s n = field w prec t m) : s = t ∧ n = m := by
  have h₁ := (field_lt_iff hn hm).not.mp (by rw [h]; exact lt_irrefl _)
  have h₂ := (field_lt_iff hm hn).not.mp (by rw [h]; exact lt_irrefl _)
  cases s <;> cases t
  · exact ⟨rfl, by omega⟩
  · exact absurd trivial h₂
  · exact absurd trivial h₁
  · refine ⟨rfl, ?_⟩
    dsimp only at h₁ h₂
    split at h₁
    · rename_i hl
      rw [if_pos hl.symm] at h₂
      omega
    · rename_i hl
      rw [if_neg (Ne.symm hl)] at h₂
      omega

end RedB.Dml
