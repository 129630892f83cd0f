import RedB.Dml.Outfile
import RedB.Dml.Width

/-!
# Values that are stored again

Rows are copied column by column: each value that is read from a row is appended to another one. So
what a column stores has to be a value that it takes and stores as it is. Which values are such is
`Column.Settles`. Texts are. A boolean is only in a key, where it is kept as it was given, and the
sign of a number in a key must not stand behind zeros (`take_again_iff`).
-/

namespace RedB.Dml

open Tran (lower)

variable (A : Arith)

/-- `if (value == "null") value.clear()` -/
def cleared (value : Text) : Text := if value = "null".toList then [] else value

/-- A column with `FLAG_PRIMARY` or `FLAG_UNIQUE`. -/
def Column.isKey (col : Column) : Bool := col.isPrimary || col.isUnique

/-- A text begins with a digit. -/
def startsWithDigit (text : Text) : Bool := text.head?.any Char.isDigit

/-- The column takes what it makes of the value, and stores it as it is. -/
def Column.Settles (col : Column) (value : Text) : Prop :=
  match col.type with
  | .char | .varchar | .binary => True
  | .enum => value = "null".toList → [] ∈ col.enumList
  | .date | .datetime | .timestamp => value = "null".toList → A.isDate col.type [] = true
  | .boolean => col.isKey = true ∧ value ≠ "null".toList
  | .int => ∃ z, stoi (cleared value) = some z ∧ (col.isKey = true → 0 ≤ z ∨ col.size ≤ (intToText z).length)
  | .float => ∃ x, A.stof (cleared value) = some x ∧ (A.fixed col.prec x).length ≤ col.size ∧
      (A.stof (A.fixed col.prec x)).isSome = true ∧
      (col.isKey = true → startsWithDigit (A.fixed col.prec x) = true ∨ col.size ≤ (A.fixed col.prec x).length)

/-- What `std::fixed` prints and `std::stof` reads: a number that is read is printed as it was; zeros
before a digit do not matter; before a sign, or a word, they are all that is read. -/
structure Reprints : Prop where
  again : ∀ prec x y, A.stof (A.fixed prec x) = some y → A.fixed prec y = A.fixed prec x
  zeros : ∀ k prec x, startsWithDigit (A.fixed prec x) = true → A.stof (List.replicate k '0' ++ A.fixed prec x) = A.stof (A.fixed prec x)
  sign : ∀ k prec x, startsWithDigit (A.fixed prec x) = false →
    ∃ y, A.stof (List.replicate (k + 1) '0' ++ A.fixed prec x) = some y ∧ ∀ c ∈ A.fixed prec y, c = '0' ∨ c = '.'
  other : ∀ prec x, startsWithDigit (A.fixed prec x) = false → ∃ c ∈ A.fixed prec x, c ≠ '0' ∧ c ≠ '.'
  number : ∀ prec x, lower (A.fixed prec x) ≠ "null".toList

variable {A} {col : Column} {cols : List Column} {value text : Text} {values texts : List Text}

/-! ### What is taken -/

theorem cleared_ne (value : Text) : cleared value ≠ "null".toList := by
  unfold cleared
  split
  · decide
  · assumption

theorem cleared_of_ne (h : value ≠ "null".toList) : cleared value = value := if_neg h

/-- A column takes a text and stores it as it is. -/
theorem take_self_iff (h : text ≠ "null".toList) :
    col.take A text = some text ↔ col.accepts A text = true ∧ col.format A text = some text := by
  rw [Column.take, Option.ite_none_right_eq_some, Column.store, if_neg h]

theorem ne_of_lower (h : lower text ≠ "null".toList) : text ≠ "null".toList := by
  rintro rfl
  exact h (by decide)

theorem notNullCompliant_of_ne (h : lower text ≠ "null".toList) : col.notNullCompliant text = true := by
  rw [Column.notNullCompliant, decide_eq_true h, Bool.or_true]

/-- A text that does not spell null is valid if its type takes it. -/
theorem accepts_iff (h : lower text ≠ "null".toList) : col.accepts A text = true ↔
    text.length ≤ col.size ∧
      match col.type with
      | .boolean => text = ['0'] ∨ text = ['1']
      | .char | .binary | .varchar => True
      | .enum => text ∈ col.enumList
      | .date | .datetime | .timestamp => A.isDate col.type text = true
      | .float => (A.stof text).isSome = true
      | .int => (stoi text).isSome = true := by
  rw [Column.accepts, Bool.and_eq_true, decide_eq_true_eq, Column.isValid, notNullCompliant_of_ne h, and_comm]
  refine and_congr_right fun hlen => ?_
  rw [if_neg (by decide), if_neg h, if_neg (by omega)]
  cases col.type <;> simp

/-- A column that keeps texts as they are. -/
theorem take_again_text (hf : ∀ v, col.format A v = some v) (h : col.take A value = some text) :
    col.take A text = some text ↔ (value = "null".toList → col.accepts A [] = true) := by
  rw [Column.take, Option.ite_none_right_eq_some] at h
  obtain ⟨hacc, hst⟩ := h
  obtain rfl : cleared value = text := Option.some.inj ((hf _).symm.trans hst)
  rw [take_self_iff (cleared_ne value), hf]
  unfold cleared
  split
  · rename_i hn
    simp [hn]
  · rename_i hn
    exact iff_of_true ⟨hacc, rfl⟩ fun h => absurd h hn

/-! ### Integers -/

theorem stoi_zeros_neg (k n : ℕ) : stoi (List.replicate (k + 1) '0' ++ intToText (.negSucc n)) = some 0 := by
  have hdigits : ∀ c ∈ List.replicate (k + 1) '0', c.isDigit = true := by
    intro c hc
    obtain ⟨-, rfl⟩ := List.mem_replicate.mp hc
    rfl
  have htake : (List.replicate (k + 1) '0' ++ intToText (.negSucc n)).takeWhile Char.isDigit = List.replicate (k + 1) '0' := by
    rw [List.takeWhile_append_of_pos hdigits, intToText, List.takeWhile_cons_of_neg (by decide), List.append_nil]
  have hlead : leadingNat (List.replicate (k + 1) '0' ++ intToText (.negSucc n)) = some 0 := by
    rw [leadingNat, htake, if_neg (by rw [List.replicate_succ]; exact List.cons_ne_nil _ _), Nat.ofDigitChars_replicate_zero, Nat.mul_zero]
  rw [List.replicate_succ, List.cons_append] at hlead ⊢
  rw [stoi_digit (by decide), hlead]
  rfl

/-- A number in a column that fills up with zeros is read as it was if its sign is not behind them. -/
theorem stoi_padLeft_iff {n : ℕ} {z : ℤ} (hz : int32 z = some z) :
    (stoi (padLeft n '0' (intToText z))).map (fun z => padLeft n '0' (intToText z)) = some (padLeft n '0' (intToText z)) ↔
      0 ≤ z ∨ n ≤ (intToText z).length := by
  cases z with
  | ofNat m =>
    have hread : stoi (padLeft n '0' (intToText (.ofNat m))) = some (.ofNat m) := (stoi_zeros_toText _ m).trans hz
    rw [hread]
    exact iff_of_true rfl (.inl (Int.natCast_nonneg m))
  | negSucc m =>
    rw [or_iff_right (show ¬ 0 ≤ Int.negSucc m by omega)]
    constructor
    · intro h
      by_contra hlt
      obtain ⟨k, hk⟩ : ∃ k, n - (intToText (.negSucc m)).length = k + 1 := ⟨n - (intToText (.negSucc m)).length - 1, by omega⟩
      have hread : stoi (padLeft n '0' (intToText (.negSucc m))) = some 0 := by
        rw [padLeft, hk]
        exact stoi_zeros_neg k m
      rw [hread, Option.map_some] at h
      -- there is no sign in what is written now
      have hminus : '-' ∈ padLeft n '0' (intToText 0) := by
        rw [Option.some.inj h]
        exact List.mem_append_right _ List.mem_cons_self
      rcases List.mem_append.mp hminus with hm | hm
      · exact absurd (List.mem_replicate.mp hm).2 (by decide)
      · exact absurd hm (by decide)
    · intro hle
      have hpad : padLeft n '0' (intToText (.negSucc m)) = intToText (.negSucc m) := by
        rw [padLeft, Nat.sub_eq_zero_of_le hle, List.replicate_zero, List.nil_append]
      rw [hpad, stoi_intToText, hz, Option.map_some, hpad]

theorem lower_intToText_ne (k : ℕ) (z : ℤ) : lower (List.replicate k '0' ++ intToText z) ≠ "null".toList := by
  intro h
  have hn : 'l' ∈ lower (List.replicate k '0' ++ intToText z) := by
    rw [h]
    decide
  obtain ⟨c, hc, hl⟩ := List.mem_map.mp hn
  have hdigit : c.isDigit = true ∨ c = '-' := by
    rcases List.mem_append.mp hc with hc | hc
    · exact .inl ((List.mem_replicate.mp hc).2 ▸ rfl)
    · cases z with
      | ofNat n => exact .inl (toText_digits hc)
      | negSucc n =>
        rcases List.mem_cons.mp hc with rfl | hc
        · exact .inr rfl
        · exact .inl (toText_digits hc)
  rcases hdigit with hd | rfl
  · rw [toLower_of_isDigit hd] at hl
    subst hl
    exact absurd hd (by decide)
  · exact absurd hl (by decide)

/-! ### Floats -/

theorem lower_zeros_ne {k : ℕ} {text : Text} (h : lower text ≠ "null".toList) : lower (List.replicate k '0' ++ text) ≠ "null".toList := by
  cases k with
  | zero => exact h
  | succ k =>
    intro hl
    have hc : Char.toLower '0' = 'n' := (List.cons.inj hl).1
    exact absurd hc (by decide)

/-- What is printed is read and printed as it was if no sign is behind zeros. -/
theorem stof_padLeft_iff (hA : Reprints A) {n prec : ℕ} {x : A.F} :
    (A.stof (padLeft n '0' (A.fixed prec x))).map (fun y => padLeft n '0' (A.fixed prec y)) = some (padLeft n '0' (A.fixed prec x)) ↔
      (A.stof (A.fixed prec x)).isSome = true ∧ (startsWithDigit (A.fixed prec x) = true ∨ n ≤ (A.fixed prec x).length) := by
  by_cases hread : startsWithDigit (A.fixed prec x) = true ∨ n ≤ (A.fixed prec x).length
  · have heq : A.stof (padLeft n '0' (A.fixed prec x)) = A.stof (A.fixed prec x) := by
      rcases hread with hd | hle
      · exact hA.zeros _ _ _ hd
      · rw [padLeft, Nat.sub_eq_zero_of_le hle, List.replicate_zero, List.nil_append]
    rw [heq, and_iff_left hread]
    cases hy : A.stof (A.fixed prec x) with
    | none => exact iff_of_false (fun h => by cases h) fun h => by cases h
    | some y => exact iff_of_true (by rw [Option.map_some, hA.again prec x y hy]) rfl
  · obtain ⟨hd, hlt⟩ := not_or.mp hread
    rw [Bool.not_eq_true] at hd
    obtain ⟨k, hk⟩ : ∃ k, n - (A.fixed prec x).length = k + 1 := ⟨n - (A.fixed prec x).length - 1, by omega⟩
    obtain ⟨y, hy, hzero⟩ := hA.sign k prec x hd
    refine iff_of_false (fun h => ?_) fun h => hread h.2
    have hpad : padLeft n '0' (A.fixed prec x) = List.replicate (k + 1) '0' ++ A.fixed prec x := by rw [padLeft, hk]
    rw [hpad, hy] at h
    obtain ⟨c, hc, hne⟩ := hA.other prec x hd
    have hmem : c ∈ padLeft n '0' (A.fixed prec y) := by
      rw [show padLeft n '0' (A.fixed prec y) = _ from Option.some.inj h]
      exact List.mem_append_right _ hc
    rcases List.mem_append.mp hmem with hm | hm
    · exact hne.1 (List.mem_replicate.mp hm).2
    · exact (hzero c hm).elim hne.1 hne.2

/-! ### Columns -/

theorem format_key (ha : col.isAutoInc = false) (hk : col.isKey = true) (value : Text) : col.format A value =
    match col.type with
    | .float => (A.stof value).map fun x => padLeft col.size '0' (A.fixed col.prec x)
    | .int => (stoi value).map fun z => padLeft col.size '0' (intToText z)
    | _ => some value :=
  (if_neg (Bool.eq_false_iff.mp ha)).trans (if_pos hk)

theorem format_other (ha : col.isAutoInc = false) (hk : col.isKey = false) (value : Text) : col.format A value =
    match col.type with
    | .float => some (((A.stof value).map (A.fixed col.prec)).getD [])
    | .int => some (((stoi value).map intToText).getD [])
    | .boolean =>
        if lower value = "true".toList then some ['1']
        else if lower value = "false".toList then some ['0']
        else some []
    | _ => some value :=
  (if_neg (Bool.eq_false_iff.mp ha)).trans (if_neg (Bool.eq_false_iff.mp hk))

theorem take_length (h : col.take A value = some text) : value.length ≤ col.size := by
  rw [Column.take, Option.ite_none_right_eq_some, Column.accepts, Bool.and_eq_true] at h
  exact of_decide_eq_true h.1.2

theorem take_format (h : col.take A value = some text) : col.format A (cleared value) = some text := by
  rw [Column.take, Option.ite_none_right_eq_some] at h
  exact h.2

theorem length_cleared_le (value : Text) : (cleared value).length ≤ value.length := by
  unfold cleared
  split
  · exact Nat.zero_le _
  · exact le_rfl

theorem take_ne_nil (ht : col.type = .float ∨ col.type = .int ∨ col.type = .boolean) : col.take A [] = none := by
  refine if_neg fun h => ?_
  have := ((accepts_iff (by decide)).mp h).2
  rcases ht with ht | ht | ht <;> rw [ht] at this <;> simp only at this
  · rw [A.stof_nil] at this
    cases this
  · cases this
  · rcases this with h | h <;> cases h

theorem take_again_int (ha : col.isAutoInc = false) (ht : col.type = .int) (h : col.take A value = some text) :
    col.take A text = some text ↔ col.Settles A value := by
  have hlen := (length_cleared_le value).trans (take_length h)
  have hf := take_format h
  rw [Column.Settles, ht]
  simp only
  cases hz : stoi (cleared value) with
  | none =>
    refine iff_of_false (fun hself => ?_) fun ⟨z, hz', _⟩ => by cases hz'
    -- nothing has been stored
    cases hk : col.isKey with
    | true => rw [format_key ha hk, ht] at hf; simp [hz] at hf
    | false =>
      rw [format_other ha hk, ht] at hf
      simp only [hz, Option.map_none, Option.getD_none, Option.some.injEq] at hf
      rw [← hf, take_ne_nil (.inr (.inl ht))] at hself
      cases hself
  | some z =>
    have hint : int32 z = some z := int32_eq_some.mpr ⟨stoi_range hz, rfl⟩
    have hwidth := (length_intToText_le hz).trans hlen
    simp only [Option.some.injEq, exists_eq_left']
    cases hk : col.isKey with
    | true =>
      rw [format_key ha hk, ht] at hf
      simp only [hz, Option.map_some, Option.some.injEq] at hf
      subst hf
      have hl : lower (padLeft col.size '0' (intToText z)) ≠ "null".toList := lower_intToText_ne _ z
      rw [take_self_iff (ne_of_lower hl), accepts_iff hl, length_padLeft_eq hwidth, format_key ha hk, ht]
      simp only [forall_const]
      rw [← stoi_padLeft_iff hint]
      refine ⟨fun h => h.2, fun h => ⟨⟨le_rfl, ?_⟩, h⟩⟩
      rw [← Option.isSome_map (f := fun z => padLeft col.size '0' (intToText z)), h]
      rfl
    | false =>
      rw [format_other ha hk, ht] at hf
      simp only [hz, Option.map_some, Option.getD_some, Option.some.injEq] at hf
      subst hf
      have hl : lower (intToText z) ≠ "null".toList := lower_intToText_ne 0 z
      rw [take_self_iff (ne_of_lower hl), accepts_iff hl, format_other ha hk, ht]
      simp [stoi_intToText, hint, hwidth]

theorem take_again_float (hA : Reprints A) (ha : col.isAutoInc = false) (ht : col.type = .float) (h : col.take A value = some text) :
    col.take A text = some text ↔ col.Settles A value := by
  have hf := take_format h
  rw [Column.Settles, ht]
  simp only
  cases hx : A.stof (cleared value) with
  | none =>
    refine iff_of_false (fun hself => ?_) fun ⟨x, hx', _⟩ => by cases hx'
    cases hk : col.isKey with
    | true => rw [format_key ha hk, ht] at hf; simp [hx] at hf
    | false =>
      rw [format_other ha hk, ht] at hf
      simp only [hx, Option.map_none, Option.getD_none, Option.some.injEq] at hf
      rw [← hf, take_ne_nil (.inl ht)] at hself
      cases hself
  | some x =>
    simp only [Option.some.injEq, exists_eq_left']
    cases hk : col.isKey with
    | true =>
      rw [format_key ha hk, ht] at hf
      simp only [hx, Option.map_some, Option.some.injEq] at hf
      subst hf
      have hl : lower (padLeft col.size '0' (A.fixed col.prec x)) ≠ "null".toList := lower_zeros_ne (hA.number _ _)
      rw [take_self_iff (ne_of_lower hl), accepts_iff hl, length_padLeft, max_le_iff, format_key ha hk, ht]
      simp only [forall_const, le_refl, true_and]
      rw [← stof_padLeft_iff hA, and_assoc]
      refine and_congr_right fun _ => ⟨fun h => h.2, fun h => ⟨?_, h⟩⟩
      rw [← Option.isSome_map (f := fun y => padLeft col.size '0' (A.fixed col.prec y)), h]
      rfl
    | false =>
      rw [format_other ha hk, ht] at hf
      simp only [hx, Option.map_some, Option.getD_some, Option.some.injEq] at hf
      subst hf
      have hl := hA.number col.prec x
      rw [take_self_iff (ne_of_lower hl), accepts_iff hl, format_other ha hk, ht]
      simp only [Bool.false_eq_true, false_imp_iff, and_true]
      rw [and_assoc]
      refine and_congr_right fun _ => ⟨fun h => h.1, fun h => ⟨h, ?_⟩⟩
      obtain ⟨y, hy⟩ := Option.isSome_iff_exists.mp h
      rw [hy, Option.map_some, Option.getD_some, hA.again _ _ _ hy]

theorem take_again_boolean (ha : col.isAutoInc = false) (ht : col.type = .boolean) (h : col.take A value = some text) :
    col.take A text = some text ↔ col.Settles A value := by
  rw [Column.Settles, ht]
  simp only
  cases hk : col.isKey with
  | true =>
    have hf : ∀ v, col.format A v = some v := fun v => by rw [format_key ha hk, ht]
    rw [take_again_text hf h, and_iff_right rfl]
    refine imp_congr_right fun _ => iff_of_false (fun hacc => ?_) id
    have := @take_self_iff A col [] (by decide)
    rw [take_ne_nil (.inr (.inr ht)), hf] at this
    exact nomatch this.mpr ⟨hacc, rfl⟩
  | false =>
    refine iff_of_false (fun hself => ?_) fun hs => by cases hs.1
    have hvalid : col.isValid A value = true := by
      rw [Column.take, Option.ite_none_right_eq_some, Column.accepts, Bool.and_eq_true] at h
      exact h.1.1
    have hbool : lower (cleared value) ≠ "true".toList ∧ lower (cleared value) ≠ "false".toList := bool_of_isValid ht hvalid
    have hf := take_format h
    rw [format_other ha hk, ht] at hf
    simp only at hf
    rw [if_neg hbool.1, if_neg hbool.2] at hf
    rw [← Option.some.inj hf, take_ne_nil (.inr (.inr ht))] at hself
    cases hself

/-- A column takes what it makes of a value and stores it as it is, if and only if the value is one
that settles. -/
theorem take_again_iff (hA : Reprints A) (ha : col.isAutoInc = false) (h : col.take A value = some text) :
    col.take A text = some text ↔ col.Settles A value := by
  have hf : col.type ≠ .float → col.type ≠ .int → col.type ≠ .boolean → ∀ v, col.format A v = some v := by
    intro h1 h2 h3 v
    cases hk : col.isKey with
    | true => rw [format_key ha hk]; cases ht : col.type <;> simp_all
    | false => rw [format_other ha hk]; cases ht : col.type <;> simp_all
  cases ht : col.type with
  | float => exact take_again_float hA ha ht h
  | int => exact take_again_int ha ht h
  | boolean => exact take_again_boolean ha ht h
  | _ =>
    rw [take_again_text (hf (by rw [ht]; nofun) (by rw [ht]; nofun) (by rw [ht]; nofun)) h, accepts_iff (by decide), Column.Settles, ht]
    simp

/-! ### Rows -/

theorem storeAll_cons_iff : storeAll A (col :: cols) (value :: values) = some (text :: texts) ↔
    col.take A value = some text ∧ storeAll A cols values = some texts := by
  constructor
  · intro h
    obtain ⟨text', ht, h'⟩ := Option.bind_eq_some_iff.mp h
    obtain ⟨rest, hrest, hcons⟩ := Option.bind_eq_some_iff.mp h'
    obtain ⟨rfl, rfl⟩ := List.cons.inj (Option.some.inj hcons)
    exact ⟨ht, hrest⟩
  · rintro ⟨ht, hrest⟩
    rw [storeAll, ht, hrest]
    rfl

theorem storeAll_again_iff (hA : Reprints A) (hauto : ∀ col ∈ cols, col.isAutoInc = false) (hlen : values.length = cols.length)
    (h : storeAll A cols values = some texts) :
    storeAll A cols texts = some texts ↔ List.Forall₂ (Column.Settles A) cols values := by
  induction cols generalizing values texts with
  | nil =>
    obtain rfl := List.length_eq_zero_iff.mp hlen
    obtain rfl := Option.some.inj h
    exact iff_of_true rfl .nil
  | cons col cols ih =>
    cases values with
    | nil => cases hlen
    | cons value values =>
      cases texts with
      | nil => cases length_storeAll h
      | cons text texts =>
        obtain ⟨ht, hrest⟩ := storeAll_cons_iff.mp h
        rw [storeAll_cons_iff, List.forall₂_cons, take_again_iff hA (hauto col List.mem_cons_self) ht,
          ih (fun c hc => hauto c (List.mem_cons_of_mem _ hc)) (Nat.succ.inj hlen) hrest]

theorem append_eq_ok {t t' : Table} {i : ℕ} {r r' : Row} (hc : t.columns[i]? = some col) :
    append A i value r t = .ok (r', text) t' ↔ col.take A value = some text ∧ r.data.length + text.length ≤ capacity t.columns ∧
      r' = r.put i text ∧ t' = { t with columns := t.columns.set i col.next } := by
  constructor
  · intro h
    cases ht : col.take A value with
    | none =>
      obtain ⟨e, c, he, -⟩ := append_error (r := r) hc (fun text h' => by rw [ht] at h'; cases h')
      rw [he] at h
      cases h
    | some text' =>
      by_cases hroom : r.data.length + text'.length ≤ capacity t.columns
      · rw [append_ok hc ht hroom] at h
        cases h
        exact ⟨rfl, hroom, rfl, rfl⟩
      · obtain ⟨e, c, he, -⟩ := append_error (r := r) hc fun text h' => by
          rw [ht] at h'
          cases h'
          exact not_le.mp hroom
        rw [he] at h
        cases h
  · rintro ⟨ht, hroom, rfl, rfl⟩
    exact append_ok hc ht hroom

/-- No value is longer than its byte says if the sizes add up to the data. -/
theorem short_of_sum (h : (texts.map fun text => text.length % 256).sum = texts.flatten.length) : ∀ text ∈ texts, text.length < 256 := by
  induction texts with
  | nil => exact fun _ h => absurd h List.not_mem_nil
  | cons text texts ih =>
    rw [List.map_cons, List.sum_cons, List.flatten_cons, List.length_append] at h
    have hle := sum_mod_le texts
    have hmod := Nat.mod_le text.length 256
    have hlt := Nat.mod_lt text.length (show 0 < 256 by decide)
    exact List.forall_mem_cons.mpr ⟨by omega, ih (by omega)⟩

/-- A row is copied as it is, value by value, if and only if all values that it has been made of settle. -/
theorem copy_iff (hA : Reprints A) {t : Table} {r : Row} (hauto : ∀ col ∈ t.columns, col.isAutoInc = false)
    (hlen : values.length = t.columns.length) (h : loadRow A 0 values (Row.empty t.columns.length) t = .ok r t)
    (hsum : r.sizes.sum = r.data.length) :
    loadRow A 0 r.values (Row.empty t.columns.length) t = .ok r t ↔ List.Forall₂ (Column.Settles A) t.columns values := by
  have hsizes : (Row.empty t.columns.length).sizes.length = t.columns.length := List.length_replicate ..
  obtain ⟨hmake, -⟩ := (loadRow_iff hauto rfl hsizes hlen).mp h
  obtain ⟨texts, hst, hcap, rfl⟩ := makeRow_iff.mp hmake
  have hshort := short_of_sum hsum
  rw [values_ofTexts hshort, loadRow_iff hauto rfl hsizes (length_storeAll hst), and_iff_left rfl, makeRow_iff,
    ← storeAll_again_iff hA hauto hlen hst]
  constructor
  · rintro ⟨texts', hst', -, he⟩
    rwa [ofTexts_inj hshort he.symm] at hst'
  · exact fun h => ⟨texts, h, hcap, rfl⟩

/-- What a column stores is stored again as it is, if and only if the value was one that settles; so a
row is copied as it is if and only if all its values are such. -/
theorem stored_again_iff (hA : Reprints A) :
    (∀ (t t' : Table) (i : ℕ) (col : Column) (value text : Text) (r : Row),
      t.columns[i]? = some col → col.isAutoInc = false →
      append A i value (Row.empty t.columns.length) t = .ok (r, text) t' →
      (append A i text (Row.empty t.columns.length) t' = .ok (r, text) t' ↔ col.Settles A value)) ∧
    ∀ (t : Table) (values : List Text) (r : Row),
      (∀ col ∈ t.columns, col.isAutoInc = false) → values.length = t.columns.length →
      loadRow A 0 values (Row.empty t.columns.length) t = .ok r t → r.sizes.sum = r.data.length →
      (loadRow A 0 r.values (Row.empty t.columns.length) t = .ok r t ↔ List.Forall₂ (Column.Settles A) t.columns values) := by
  refine ⟨fun t t' i col value text r hc ha h => ?_, fun t values r hauto hlen h hsum => copy_iff hA hauto hlen h hsum⟩
  obtain ⟨ht, hroom, rfl, rfl⟩ := (append_eq_ok hc).mp h
  rw [append_counters hc ha, append_eq_ok hc, append_counters hc ha, take_again_iff hA ha ht]
  exact and_iff_left ⟨hroom, rfl, rfl⟩

/-! ### Whole numbers -/

theorem startsWithDigit_toText (n : ℕ) : startsWithDigit (toText n) = true := by
  obtain ⟨c, cs, hc⟩ := List.exists_cons_of_ne_nil (toText_ne_nil n)
  have hd : c.isDigit = true := toText_digits (hc ▸ List.mem_cons_self)
  rw [hc, startsWithDigit, List.head?_cons, Option.any_some, hd]

theorem reprints_whole : Reprints wholeNumbers where
  again _ x y hy := by
    have hy : int32 x = some y := (stoi_intToText x).symm.trans hy
    obtain ⟨-, rfl⟩ := int32_eq_some.mp hy
    rfl
  zeros k _ x hd := by
    cases x with
    | ofNat n => exact (stoi_zeros_toText k n).trans (stoi_toText n).symm
    | negSucc n => cases hd
  sign k _ x hd := by
    cases x with
    | ofNat n => exact absurd ((startsWithDigit_toText n).symm.trans hd) (by decide)
    | negSucc n =>
      refine ⟨(0 : ℤ), ?_, ?_⟩ <;> simp only [wholeNumbers]
      · exact stoi_zeros_neg k n
      · decide
  other _ x hd := by
    cases x with
    | ofNat n => exact absurd ((startsWithDigit_toText n).symm.trans hd) (by decide)
    | negSucc n => exact ⟨'-', List.mem_cons_self, by decide, by decide⟩
  number _ x := lower_intToText_ne 0 x

/-- A number and a name are copied as they are. -/
theorem stored_again_person :
    loadRow wholeNumbers 0 (person "7" "ann").values (Row.empty 2) people = .ok (person "7" "ann") people :=
  ((stored_again_iff reprints_whole).2 people ["7".toList, "ann".toList] (person "7" "ann") (by decide) (by decide)
    ((loadRow_iff (by decide) rfl (by decide) (by decide)).mpr ⟨by decide, rfl⟩) (by decide)).mpr
      (.cons ⟨7, by decide, by decide⟩ (.cons trivial .nil))

/-- The column `id` of `CREATE TABLE t (id INT, PRIMARY KEY (id))`. -/
def keyId : Column :=
  { name := "id".toList, type := .int, size := 10, prec := 0, enumList := [], isAutoInc := false, isNotNull := true,
    isPrimary := true, isUnique := true, autoInc := 0 }

/-- `-5` is stored as `00000000-5`, and that as `0000000000`. -/
theorem negative_key_not_again : ¬∀ (A : Arith), Reprints A → ∀ (col : Column) (value text : Text), col.isAutoInc = false →
    col.take A value = some text → col.take A text = some text := by
  intro h
  have hself := h wholeNumbers reprints_whole keyId "-5".toList "00000000-5".toList rfl rfl
  exact absurd hself (by decide)

end RedB.Dml
