import RedB.Dml.Fold
import RedB.Dml.KeyValues

/-!
# Integer expressions

Arithmetic is done in single precision, on texts: the values of both sides are read as floats, and the
result is printed with six digits and read again by what uses it. An integer of up to 24 bits is a float,
but from a million on it is printed with an exponent, which `std::stoi` does not read when the result is
stored in a column.

The subexpressions of an integer expression are stored as what they are worth if and only if no operator
has a result of a million or more and no column has a negative number behind zeros (`integers_iff`).
-/

namespace RedB.Dml

open Tran (lower)

/-! ### Integers in texts -/

/-- The digits of an integer, with a minus sign before them or none. -/
def IntText (text : Text) (z : ℤ) : Prop :=
  ∃ ds : Text, ds ≠ [] ∧ (∀ c ∈ ds, c.isDigit = true) ∧
    (text = ds ∧ z = Nat.ofDigitChars 10 ds 0 ∨ text = '-' :: ds ∧ z = -(Nat.ofDigitChars 10 ds 0 : ℤ))

/-- The integer is a float. -/
def Single (z : ℤ) : Prop := |z| < 2 ^ 24

/-- The integer is printed with all its digits. -/
def SixDigits (z : ℤ) : Prop := |z| < 10 ^ 6

instance (z : ℤ) : Decidable (Single z) := inferInstanceAs (Decidable (|z| < 2 ^ 24))

instance (z : ℤ) : Decidable (SixDigits z) := inferInstanceAs (Decidable (|z| < 10 ^ 6))

/-- Integers in single precision: what a float is worth, and how it is printed. Zero may have a sign. -/
structure SinglePrecision (A : Arith) (worth : A.F → ℤ → Prop) : Prop where
  read : ∀ text z, IntText text z → Single z → ∃ x, A.stofAll text = some x ∧ worth x z
  add : ∀ x y a b, worth x a → worth y b → Single (a + b) → worth (A.add x y) (a + b)
  sub : ∀ x y a b, worth x a → worth y b → Single (a - b) → worth (A.sub x y) (a - b)
  mul : ∀ x y a b, worth x a → worth y b → Single (a * b) → worth (A.mul x y) (a * b)
  digits : ∀ x z, worth x z → SixDigits z → IntText (A.put x) z
  /-- One digit, and then a point or the exponent. -/
  exponent : ∀ x z, worth x z → Single z → ¬SixDigits z → ∃ d c rest, d.isDigit = true ∧ (c = '.' ∨ c = 'e') ∧
    (A.put x = d :: c :: rest ∨ A.put x = '-' :: d :: c :: rest)

/-! ### Expressions -/

/-- An expression of integers and what it is worth, all its parts being floats. Columns may be filled up with zeros. -/
inductive Denotes : Cond → ℤ → Prop
  | literal {text : Text} {z : ℤ} : IntText text z → Single z → Denotes (.value .int text) z
  | column {tbl : Name} {colName : Text} {negate : Bool} {k : ℕ} {z : ℤ} :
      Single z → Denotes (.column tbl colName .int negate (List.replicate k '0' ++ intToText z)) z
  | op {o : Operator} {f : ℤ → ℤ → ℤ} {l r : Cond} {a b : ℤ} :
      o.int = some f → Denotes l a → Denotes r b → Single (f a b) → Denotes (.op o l r) (f a b)

/-- What an INT column has for an integer. -/
def Column.written (col : Column) (z : ℤ) : Text := if col.isKey then padLeft col.size '0' (intToText z) else intToText z

variable (A : Arith)

/-- What `row::append` makes of the text in an INT column is the integer. A column that counts by itself is never assigned to. -/
def StoredInt (text : Text) (z : ℤ) : Prop :=
  ∀ col : Column, col.type = .int → col.isAutoInc = false → ∀ stored, col.take A text = some stored → stored = col.written z

/-- Every part of the expression has a result, which is stored as what the part is worth. -/
def KeepsIntegers (e : Cond) : Prop :=
  ∀ s ∈ e.subs, ∀ z, Denotes s z → ∃ text, execCondition A s = some text ∧ StoredInt A text z

/-- The result of an operator has six digits, and the value of a column has no sign behind zeros. -/
def SixDigitsAt : Cond → Prop
  | .op o l r => ∀ z, Denotes (.op o l r) z → SixDigits z
  | .column tbl colName type negate text => ∀ z, Denotes (.column tbl colName type negate text) z → 0 ≤ z ∨ text = intToText z
  | .value _ _ => True

/-- The item of a column, which an assignment does not evaluate. -/
def Cond.isColumn : Cond → Bool
  | .column .. => true
  | _ => false

variable {A} {worth : A.F → ℤ → Prop} {text : Text} {z w : ℤ} {e s l r : Cond} {o : Operator}

/-! ### Reading -/

theorem Single.int32 (h : Single z) : int32 z = some z := by
  rw [Single, abs_lt] at h
  exact int32_eq_some.mpr ⟨⟨by omega, by omega⟩, rfl⟩

theorem stoi_intText (h : IntText text z) (hz : Single z) : stoi text = some z := by
  obtain ⟨ds, hne, hds, ⟨rfl, rfl⟩ | ⟨rfl, rfl⟩⟩ := h
  · rw [stoi_digits hne hds, hz.int32]
  · rw [stoi_neg, leadingNat_digits hne hds, Option.bind_some, hz.int32]

theorem intText_ne_nil (h : IntText text z) : text ≠ [] := by
  obtain ⟨ds, hne, -, ⟨rfl, -⟩ | ⟨rfl, -⟩⟩ := h
  · exact hne
  · exact List.cons_ne_nil _ _

theorem intText_zeros (k n : ℕ) : IntText (List.replicate k '0' ++ toText n) n := by
  refine ⟨_, fun h => toText_ne_nil n (List.append_eq_nil_iff.mp h).2, fun c hc => ?_, .inl ⟨rfl, ?_⟩⟩
  · rcases List.mem_append.mp hc with hc | hc
    · exact (List.mem_replicate.mp hc).2 ▸ rfl
    · exact toText_digits hc
  · rw [Nat.ofDigitChars_append, Nat.ofDigitChars_replicate_zero, Nat.mul_zero, toText, Nat.ofDigitChars_ten_toDigits]

theorem intText_intToText (z : ℤ) : IntText (intToText z) z := by
  cases z with
  | ofNat n => exact intText_zeros 0 n
  | negSucc n =>
    refine ⟨toText (n + 1), toText_ne_nil _, fun c hc => toText_digits hc, .inr ⟨rfl, ?_⟩⟩
    rw [toText, Nat.ofDigitChars_ten_toDigits]
    rfl

/-- A text that is read as a number does not spell null. -/
theorem lower_ne_of_stoi (h : stoi text = some w) : lower text ≠ "null".toList := by
  intro hl
  cases text with
  | nil => cases h
  | cons c cs =>
    have hc : c.toLower = 'n' := (List.cons.inj hl).1
    have halpha : c.isAlpha = true := by
      by_cases hu : c.isUpper = true
      · exact isAlpha_iff.mpr (Or.inl hu)
      · rw [toLower_of_not_isUpper hu] at hc
        rw [hc]
        rfl
    rw [stoi_word halpha] at h
    cases h

/-! ### Storing -/

theorem take_int {col : Column} {stored : Text} (ht : col.type = .int) (ha : col.isAutoInc = false) (hs : stoi text = some w)
    (h : col.take A text = some stored) : stored = col.written w := by
  have hf := take_format h
  rw [cleared_of_ne (ne_of_lower (lower_ne_of_stoi hs))] at hf
  cases hk : col.isKey with
  | true =>
    rw [format_key ha hk, ht] at hf
    simp only [hs, Option.map_some, Option.some.injEq] at hf
    rw [Column.written, hk, if_pos rfl, hf]
  | false =>
    rw [format_other ha hk, ht] at hf
    simp only [hs, Option.map_some, Option.getD_some, Option.some.injEq] at hf
    rw [Column.written, hk, if_neg Bool.false_ne_true, hf]

/-- An INT column without flags, wide enough for a text. -/
def intColumn (n : ℕ) : Column :=
  { name := "n".toList, type := .int, size := n, prec := 0, enumList := [], isAutoInc := false, isNotNull := false, isPrimary := false
    isUnique := false, autoInc := 0 }

/-- A text is stored as an integer if and only if it is read as that integer. -/
theorem storedInt_iff (hs : stoi text = some w) (hz : Single z) : StoredInt A text z ↔ w = z := by
  constructor
  · intro h
    have hacc : (intColumn text.length).accepts A text = true :=
      (accepts_iff (lower_ne_of_stoi hs)).mpr ⟨le_rfl, by simp [intColumn, hs]⟩
    have htake : ∃ stored, (intColumn text.length).take A text = some stored := by
      rw [Column.take, if_pos hacc, Column.store, if_neg (ne_of_lower (lower_ne_of_stoi hs)), format_other rfl rfl]
      exact ⟨_, rfl⟩
    obtain ⟨stored, htake⟩ := htake
    have hw := take_int rfl rfl hs htake
    have heq : intToText w = intToText z := hw.symm.trans (h _ rfl rfl _ htake)
    have hread := (stoi_intToText w).symm.trans ((congrArg stoi heq).trans (stoi_intToText z))
    rw [hz.int32] at hread
    exact (int32_eq_some.mp hread).2
  · rintro rfl col ht ha stored htake
    exact take_int ht ha hs htake

/-! ### Evaluation -/

/-- The expression has a result that is the digits of what it is worth. -/
def Good (A : Arith) (e : Cond) (z : ℤ) : Prop := ∃ text, execCondition A e = some text ∧ IntText text z

theorem Denotes.single (h : Denotes e z) : Single z := by
  cases h with
  | literal _ h => exact h
  | column h => exact h
  | op _ _ _ h => exact h

theorem mem_subs_trans {t : Cond} (hs : s ∈ e.subs) (ht : t ∈ s.subs) : t ∈ e.subs := by
  induction e with
  | value => exact List.mem_singleton.mp hs ▸ ht
  | column => exact List.mem_singleton.mp hs ▸ ht
  | op o l r ihl ihr =>
    rcases List.mem_cons.mp hs with rfl | hs
    · exact ht
    · rcases List.mem_append.mp hs with hs | hs
      · exact List.mem_cons_of_mem _ (List.mem_append_left _ (ihl hs))
      · exact List.mem_cons_of_mem _ (List.mem_append_right _ (ihr hs))

/-- An operator of two integers that are read back: its result is computed exactly. -/
theorem exec_op (hA : SinglePrecision A worth) {f : ℤ → ℤ → ℤ} {a b : ℤ} (ho : o.int = some f) (hl : Good A l a) (hr : Good A r b)
    (ha : Single a) (hb : Single b) (hab : Single (f a b)) :
    ∃ x, execCondition A (.op o l r) = some (A.put x) ∧ worth x (f a b) := by
  obtain ⟨tl, hl, htl⟩ := hl
  obtain ⟨tr, hr, htr⟩ := hr
  obtain ⟨x, hx, hxa⟩ := hA.read tl a htl ha
  obtain ⟨y, hy, hyb⟩ := hA.read tr b htr hb
  have hexec : ∀ g : A.F → A.F → A.F, execArith A (fun x y => some (g x y)) tl tr = some (A.put (g x y)) := fun g => by
    rw [execArith, hx, hy]
    rfl
  have htl' : tl ≠ NULL_VALUE := intText_ne_nil htl
  have htr' : tr ≠ NULL_VALUE := intText_ne_nil htr
  cases o with
  | add =>
    obtain rfl := Option.some.inj ho
    refine ⟨A.add x y, ?_, hA.add x y a b hxa hyb hab⟩
    rw [execCondition, hl, hr]
    simp only [Option.bind_eq_bind, Option.bind_some, if_neg htl', if_neg htr', hexec]
  | sub =>
    obtain rfl := Option.some.inj ho
    refine ⟨A.sub x y, ?_, hA.sub x y a b hxa hyb hab⟩
    rw [execCondition, hl, hr]
    simp only [Option.bind_eq_bind, Option.bind_some, if_neg htl', if_neg htr', hexec]
  | mul =>
    obtain rfl := Option.some.inj ho
    refine ⟨A.mul x y, ?_, hA.mul x y a b hxa hyb hab⟩
    rw [execCondition, hl, hr]
    simp only [Option.bind_eq_bind, Option.bind_some, if_neg htl', if_neg htr', hexec]
  | div => cases ho
  | cmp c => cases ho
  | and => cases ho
  | or => cases ho

/-- What is printed with an exponent is not read as what it is worth. -/
theorem stoi_exponent {d c : Char} {rest : Text} (hd : d.isDigit = true) (hc : c = '.' ∨ c = 'e')
    (h : text = d :: c :: rest ∨ text = '-' :: d :: c :: rest) : ∃ w, stoi text = some w ∧ |w| < 10 := by
  have hc : c.isDigit = false := by
    rcases hc with rfl | rfl <;> rfl
  have hlead : leadingNat (d :: c :: rest) = some (d.toNat - '0'.toNat) := by
    rw [leadingNat, List.takeWhile_cons_of_pos hd, List.takeWhile_cons_of_neg (by simp [hc]), if_neg (List.cons_ne_nil _ _),
      Nat.ofDigitChars_cons, Nat.ofDigitChars_nil]
    rw [Nat.mul_zero, Nat.zero_add]
  have hlt : d.toNat - '0'.toNat < 10 := by
    obtain ⟨-, hnine⟩ := isDigit_iff.mp hd
    have hzero : '0'.toNat = 48 := rfl
    omega
  generalize d.toNat - '0'.toNat = n at hlead hlt
  rcases h with rfl | rfl
  · refine ⟨n, ?_, by rw [abs_lt]; omega⟩
    rw [stoi_digit hd, hlead, Option.bind_some]
    exact int32_eq_some.mpr ⟨⟨by omega, by omega⟩, rfl⟩
  · refine ⟨-n, ?_, by rw [abs_lt]; omega⟩
    rw [stoi_neg, hlead, Option.bind_some]
    exact int32_eq_some.mpr ⟨⟨by omega, by omega⟩, rfl⟩

theorem denotes_column {tbl : Name} {colName : Text} {negate : Bool} (h : Denotes (.column tbl colName .int negate text) z) :
    ∃ k, text = List.replicate k '0' ++ intToText z := by
  cases h with
  | column _ => exact ⟨_, rfl⟩

theorem denotes_op (h : Denotes (.op o l r) z) :
    ∃ f a b, o.int = some f ∧ Denotes l a ∧ Denotes r b ∧ Single (f a b) ∧ z = f a b := by
  cases h with
  | op ho hl hr hab => exact ⟨_, _, _, ho, hl, hr, hab, rfl⟩

/-- An expression whose operators have results of six digits, and whose columns no sign behind zeros, is computed exactly. -/
theorem good_of_denotes (hA : SinglePrecision A worth) (h : Denotes e z) (hs : ∀ s ∈ e.subs, SixDigitsAt s) : Good A e z := by
  induction h with
  | literal ht _ => exact ⟨_, rfl, ht⟩
  | @column tbl colName negate k z hz =>
    refine ⟨_, rfl, ?_⟩
    rcases hs _ (Cond.self_mem_subs _) z (.column hz) with hpos | heq
    · lift z to ℕ using hpos
      exact intText_zeros k z
    · rw [heq]
      exact intText_intToText z
  | @op o f l r a b ho hl hr hab ihl ihr =>
    have hgl := ihl fun s hm => hs s (List.mem_cons_of_mem _ (List.mem_append_left _ hm))
    have hgr := ihr fun s hm => hs s (List.mem_cons_of_mem _ (List.mem_append_right _ hm))
    obtain ⟨x, hx, hworth⟩ := exec_op hA ho hgl hgr hl.single hr.single hab
    exact ⟨_, hx, hA.digits x _ hworth (hs _ List.mem_cons_self _ (.op ho hl hr hab))⟩

theorem sixDigits_of_keeps (hA : SinglePrecision A worth) (h : Denotes e z) (hk : KeepsIntegers A e) : ∀ s ∈ e.subs, SixDigitsAt s := by
  induction h with
  | literal _ _ => exact fun s hm => List.mem_singleton.mp hm ▸ trivial
  | @column tbl colName negate k z hz =>
    intro s hm
    obtain rfl := List.mem_singleton.mp hm
    intro z' hd'
    obtain ⟨k', hk'⟩ := denotes_column hd'
    obtain ⟨text, htext, hstored⟩ := hk _ (Cond.self_mem_subs _) z' hd'
    obtain rfl := Option.some.inj htext
    rw [hk'] at hstored ⊢
    cases z' with
    | ofNat n => exact .inl (Int.natCast_nonneg n)
    | negSucc n =>
      cases k' with
      | zero => exact .inr rfl
      | succ k' => cases (storedInt_iff (stoi_zeros_neg k' n) hd'.single).mp hstored
  | @op o f l r a b ho hl hr hab ihl ihr =>
    have hsl := ihl fun s hm => hk s (List.mem_cons_of_mem _ (List.mem_append_left _ hm))
    have hsr := ihr fun s hm => hk s (List.mem_cons_of_mem _ (List.mem_append_right _ hm))
    intro s hm
    rcases List.mem_cons.mp hm with rfl | hm
    · intro z' hd'
      obtain ⟨f', a', b', ho', hl', hr', hab', rfl⟩ := denotes_op hd'
      have hgl := good_of_denotes hA hl' hsl
      have hgr := good_of_denotes hA hr' hsr
      obtain ⟨x, hx, hworth⟩ := exec_op hA ho' hgl hgr hl'.single hr'.single hab'
      obtain ⟨text, htext, hstored⟩ := hk _ List.mem_cons_self _ hd'
      obtain rfl := Option.some.inj (hx.symm.trans htext)
      by_contra hsix
      obtain ⟨d, c, rest, hdig, hc, hput⟩ := hA.exponent x _ hworth hab' hsix
      obtain ⟨w, hw, hlt⟩ := stoi_exponent hdig hc hput
      -- one digit is all that is read of the result
      have hwz := (storedInt_iff hw hab').mp hstored
      exact hsix (hwz ▸ hlt.trans (by norm_num))
    · exact (List.mem_append.mp hm).elim (hsl s) (hsr s)

theorem keeps_of_sixDigits (hA : SinglePrecision A worth) (hs : ∀ s ∈ e.subs, SixDigitsAt s) : KeepsIntegers A e := by
  intro s hm z hd
  obtain ⟨text, htext, hint⟩ := good_of_denotes hA hd fun t ht => hs t (mem_subs_trans hm ht)
  exact ⟨text, htext, (storedInt_iff (stoi_intText hint hd.single) hd.single).mpr rfl⟩

theorem execAssignment_of_ne (h : Denotes e z) (hc : e.isColumn = false) (res : Text) : execAssignment A res e = execCondition A e := by
  cases h with
  | literal _ _ => rfl
  | column _ => cases hc
  | op _ _ _ _ => rfl

/-- Every part of an integer expression has a result that is stored as what the part is worth if and only if
no operator in it has a result of a million or more and no column in it a minus sign behind zeros. The same is
so of an assignment, whatever its result has been before, but for that of a column, which is not evaluated. -/
theorem integers_iff (hA : SinglePrecision A worth) (h : Denotes e z) :
    (KeepsIntegers A e ↔ ∀ s ∈ e.subs, SixDigitsAt s) ∧
    ((KeepsIntegers A e ∧ ∀ res, ∃ text, execAssignment A res e = some text ∧ StoredInt A text z) ↔
      (∀ s ∈ e.subs, SixDigitsAt s) ∧ e.isColumn = false) := by
  have hkeeps : KeepsIntegers A e ↔ ∀ s ∈ e.subs, SixDigitsAt s := ⟨sixDigits_of_keeps hA h, keeps_of_sixDigits hA⟩
  refine ⟨hkeeps, ?_⟩
  rw [hkeeps]
  refine and_congr_right fun hs => ?_
  constructor
  · intro hassign
    by_contra hc
    cases h with
    | literal _ _ => exact hc rfl
    | op _ _ _ _ => exact hc rfl
    | column hz =>
      -- the result stays what it was: another number
      obtain ⟨w, hw, hne⟩ : ∃ w, Single w ∧ w ≠ z := by
        by_cases hzero : z = 0
        · exact ⟨1, by decide, fun h => by omega⟩
        · exact ⟨0, by decide, fun h => hzero h.symm⟩
      obtain ⟨text, htext, hstored⟩ := hassign (intToText w)
      obtain rfl := Option.some.inj htext
      exact hne ((storedInt_iff (stoi_intText (intText_intToText w) hw) hz).mp hstored)
  · intro hc res
    rw [execAssignment_of_ne h hc]
    exact keeps_of_sixDigits hA hs e (e.self_mem_subs) z h

/-! ### Two expressions -/

/-- An expression is worth one integer. -/
theorem Denotes.unique {w : ℤ} (h : Denotes e z) (h' : Denotes e w) : z = w := by
  induction h generalizing w with
  | literal ht hz =>
    cases h' with
    | literal ht' hw => exact Option.some.inj ((stoi_intText ht hz).symm.trans (stoi_intText ht' hw))
  | @column tbl colName negate k z hz =>
    obtain ⟨k', hk'⟩ := denotes_column h'
    have hdrop : ∀ k t, dropZeros (List.replicate k '0' ++ t) = dropZeros t := fun k t =>
      List.dropWhile_append_of_pos fun c hc => decide_eq_true (List.mem_replicate.mp hc).2
    have hzeros := congrArg dropZeros hk'
    rw [hdrop, hdrop] at hzeros
    exact dropZeros_intToText_inj hzeros
  | op ho hl hr _ ihl ihr =>
    obtain ⟨f', a', b', ho', hl', hr', -, rfl⟩ := denotes_op h'
    obtain rfl := Option.some.inj (ho.symm.trans ho')
    rw [ihl hl', ihr hr']

/-- All of a text as digits. -/
def readDigits (text : Text) : Option ℕ :=
  if text ≠ [] ∧ ∀ c ∈ text, c.isDigit = true then some (Nat.ofDigitChars 10 text 0) else none

/-- All of a text as an integer. -/
def readIntText : Text → Option ℤ
  | '-' :: ds => (readDigits ds).map fun n => -(n : ℤ)
  | ds => (readDigits ds).map fun n => (n : ℤ)

/-- Six digits, or one and an exponent: what is printed of a number of one digit and zeros. -/
def putSix (z : ℤ) : Text :=
  if SixDigits z then intToText z
  else (if z < 0 then ['-'] else []) ++ (toText z.natAbs).take 1 ++ "e+0".toList ++ toText ((toText z.natAbs).length - 1)

/-- Single precision on integers. -/
def singleWhole : Arith := { wholeNumbers with stofAll := readIntText, put := putSix }

theorem readIntText_eq (h : IntText text z) : readIntText text = some z := by
  obtain ⟨ds, hne, hds, ⟨rfl, rfl⟩ | ⟨rfl, rfl⟩⟩ := h
  · rw [readIntText.eq_def]
    split
    · exact absurd (hds '-' List.mem_cons_self) (by decide)
    · rw [readDigits, if_pos ⟨hne, hds⟩]
      rfl
  · rw [readIntText, readDigits, if_pos ⟨hne, hds⟩]
    rfl

theorem putSix_exponent (h : ¬SixDigits z) : ∃ d c rest, d.isDigit = true ∧ (c = '.' ∨ c = 'e') ∧
    (putSix z = d :: c :: rest ∨ putSix z = '-' :: d :: c :: rest) := by
  obtain ⟨d, ds, hds⟩ := List.exists_cons_of_ne_nil (toText_ne_nil z.natAbs)
  have hd : d.isDigit = true := toText_digits (hds ▸ List.mem_cons_self)
  refine ⟨d, 'e', '+' :: '0' :: toText ((toText z.natAbs).length - 1), hd, .inr rfl, ?_⟩
  rw [putSix, if_neg h, hds]
  by_cases hneg : z < 0
  · rw [if_pos hneg]
    exact .inr rfl
  · rw [if_neg hneg]
    exact .inl rfl

theorem singleWhole_single : SinglePrecision singleWhole (fun x z => x = z) where
  read text z h _ := ⟨z, readIntText_eq h, rfl⟩
  add := by
    rintro x y a b rfl rfl _
    rfl
  sub := by
    rintro x y a b rfl rfl _
    rfl
  mul := by
    rintro x y a b rfl rfl _
    rfl
  digits := by
    rintro x z rfl h
    have hput : singleWhole.put x = intToText x := if_pos h
    rw [hput]
    exact intText_intToText x
  exponent := by
    rintro x z rfl _ h
    exact putSix_exponent h

/-- A column `x` that is filled up with zeros, times three, plus four. -/
def timesThree : Cond :=
  .op .add (.op .mul (.column ([], "t".toList) "x".toList .int false "0005".toList) (.value .int "3".toList)) (.value .int "4".toList)

theorem denotes_product : Denotes (.op .mul (.column ([], "t".toList) "x".toList .int false "0005".toList) (.value .int "3".toList)) (5 * 3) :=
  .op rfl (@Denotes.column _ _ _ 3 5 (by decide)) (.literal (intText_intToText 3) (by decide)) (by decide)

theorem denotes_timesThree : Denotes timesThree (5 * 3 + 4) :=
  .op rfl denotes_product (.literal (intText_intToText 4) (by decide)) (by decide)

theorem integers_timesThree : KeepsIntegers singleWhole timesThree ∧
    ∀ res, ∃ text, execAssignment singleWhole res timesThree = some text ∧ StoredInt singleWhole text (5 * 3 + 4) := by
  refine (integers_iff singleWhole_single denotes_timesThree).2.mpr ⟨fun s hs => ?_, rfl⟩
  have hsubs : s = timesThree ∨ s = .op .mul (.column ([], "t".toList) "x".toList .int false "0005".toList) (.value .int "3".toList) ∨
      s = .column ([], "t".toList) "x".toList .int false "0005".toList ∨ s = .value .int "3".toList ∨ s = .value .int "4".toList := by
    simpa [timesThree, Cond.subs] using hs
  rcases hsubs with rfl | rfl | rfl | rfl | rfl
  · intro z hz
    rw [← denotes_timesThree.unique hz]
    decide
  · intro z hz
    rw [← denotes_product.unique hz]
    decide
  · intro z hz
    rw [← (@Denotes.column ([], "t".toList) "x".toList false 3 5 (by decide)).unique hz]
    exact .inl (by decide)
  · trivial
  · trivial

/-- A thousand times a thousand is stored as one. -/
theorem million_not_kept : Denotes (.op .mul (.value .int "1000".toList) (.value .int "1000".toList)) (1000 * 1000) ∧
    ¬∃ text, execCondition singleWhole (.op .mul (.value .int "1000".toList) (.value .int "1000".toList)) = some text ∧
      StoredInt singleWhole text (1000 * 1000) := by
  have hthousand : Denotes (.value .int "1000".toList) 1000 := .literal (intText_intToText 1000) (by decide)
  refine ⟨.op rfl hthousand hthousand (by decide), ?_⟩
  rintro ⟨text, htext, hstored⟩
  have hput : execCondition singleWhole (.op .mul (.value .int "1000".toList) (.value .int "1000".toList)) = some "1e+06".toList := by decide
  obtain rfl := Option.some.inj (htext.symm.trans hput)
  have hone := (storedInt_iff (show stoi "1e+06".toList = some 1 by decide) (by decide)).mp hstored
  exact absurd hone (by decide)

end RedB.Dml
