import RedB.Comp.Assembler
import RedB.Tran.Shape

/-!
# Strings of the assembler

A string of the translator is written between quotation marks as it is. The assembler reads
the same string if no backslash takes the quotation mark at its end, that is, if the
backslashes at its end are an even number.
-/

namespace RedB.Comp

open RedB.Tran (EOI ch consumeChar takeChars)

/-- The assembler reads all of the text as a string, and no backslash takes what comes after it. -/
def Closed : Text → Prop
  | [] => True
  | [c] => c ≠ EOI ∧ c ≠ '"' ∧ c ≠ '\\'
  | c :: c' :: w => if c = EOI ∨ c = '"' then False else if c = '\\' then Closed w else Closed (c' :: w)

instance decidableClosed : DecidablePred Closed
  | [] => isTrue trivial
  | [c] => inferInstanceAs (Decidable (c ≠ EOI ∧ c ≠ '"' ∧ c ≠ '\\'))
  | c :: c' :: w =>
      have := decidableClosed w
      have := decidableClosed (c' :: w)
      inferInstanceAs (Decidable (if c = EOI ∨ c = '"' then False else if c = '\\' then Closed w else Closed (c' :: w)))

/-- A text that is closed is read up to the quotation mark. -/
theorem quoted_closed {w : Text} (h : Closed w) (rest : Text) : quoted (w ++ '"' :: rest) = (w, '"' :: rest) := by
  have hquote : ∀ rest, quoted ('"' :: rest) = ([], '"' :: rest) := fun rest => by cases rest <;> simp [quoted]
  induction w using Closed.induct with
  | case1 => exact hquote rest
  | case2 c =>
    obtain ⟨h1, h2, h3⟩ := h
    rw [List.singleton_append, quoted, if_neg (by simp [h1, h2]), if_neg h3, hquote]
  | case3 c c' w hc =>
    rw [Closed, if_pos hc] at h
    exact h.elim
  | case4 c' w hc ih =>
    rw [Closed, if_neg hc, if_pos rfl] at h
    rw [List.cons_append, List.cons_append, quoted, if_neg hc, if_pos rfl, ih h]
  | case5 c c' w hc hb ih =>
    rw [Closed, if_neg hc, if_neg hb] at h
    rw [List.cons_append, List.cons_append, quoted, if_neg hc, if_neg hb]
    rw [show quoted (c' :: (w ++ '"' :: rest)) = (c' :: w, '"' :: rest) from ih h]

/-- Only a text that is closed is read as it is. -/
theorem closed_of_quoted {w rest : Text} (h : (quoted (w ++ '"' :: rest)).1 = w) : Closed w := by
  induction w using Closed.induct with
  | case1 => trivial
  | case2 c =>
    rw [List.singleton_append, quoted] at h
    by_cases hc : c = EOI ∨ c = '"'
    · rw [if_pos hc] at h
      cases h
    · rw [if_neg hc] at h
      rw [not_or] at hc
      refine ⟨hc.1, hc.2, fun hb => ?_⟩
      rw [if_pos hb] at h
      cases (List.cons.inj h).2
  | case3 c c' w hc =>
    rw [List.cons_append, List.cons_append, quoted, if_pos hc] at h
    cases h
  | case4 c' w hc ih =>
    rw [List.cons_append, List.cons_append, quoted, if_neg hc, if_pos rfl] at h
    rw [Closed, if_neg hc, if_pos rfl]
    exact ih (List.cons.inj (List.cons.inj h).2).2
  | case5 c c' w hc hb ih =>
    rw [List.cons_append, List.cons_append, quoted, if_neg hc, if_neg hb] at h
    rw [Closed, if_neg hc, if_neg hb]
    exact ih (List.cons.inj h).2

/-! ### Backslashes at the end -/

/-- The number of backslashes at the end. -/
def trailing (w : Text) : ℕ := (w.reverse.takeWhile fun c => c = '\\').length

theorem trailing_le (w : Text) : trailing w ≤ w.length := by
  rw [trailing, ← @List.length_reverse _ w]
  exact (List.takeWhile_sublist _).length_le

theorem trailing_cons (c : Char) (w : Text) :
    trailing (c :: w) = if c = '\\' ∧ trailing w = w.length then w.length + 1 else trailing w := by
  simp only [trailing, List.reverse_cons, List.takeWhile_append, List.length_reverse]
  by_cases hw : (w.reverse.takeWhile fun c => decide (c = '\\')).length = w.length
  · by_cases hc : c = '\\'
    · simp [hw, hc]
    · simp [hw, hc]
  · simp [hw]

/-- A text without quotation marks is closed if the backslashes at its end are an even number. -/
theorem closed_iff_trailing {w : Text} (h : ∀ c ∈ w, c ≠ '"' ∧ c ≠ EOI) : Closed w ↔ trailing w % 2 = 0 := by
  induction w using Closed.induct with
  | case1 => exact iff_of_true trivial rfl
  | case2 c =>
    have hc := h c (List.mem_singleton_self c)
    rw [Closed, trailing_cons]
    by_cases hb : c = '\\'
    · simp [hb, trailing]
    · simp [hb, hc, trailing]
  | case3 c c' w hc =>
    have := h c (List.mem_cons_self ..)
    rcases hc with rfl | rfl
    · exact absurd rfl this.2
    · exact absurd rfl this.1
  | case4 c' w hc ih =>
    rw [Closed, if_neg hc, if_pos rfl, ih fun c hc => h c (by simp [hc]), trailing_cons, trailing_cons c' w]
    have := trailing_le w
    by_cases hb : c' = '\\' ∧ trailing w = w.length
    · rw [if_pos hb, if_pos (by simp), List.length_cons]
      omega
    · rw [if_neg hb, if_neg (by rw [List.length_cons]; omega)]
  | case5 c c' w hc hb ih =>
    rw [Closed, if_neg hc, if_neg hb, ih fun c hc => h c (by simp only [List.mem_cons] at hc ⊢; exact .inr hc), trailing_cons c,
      if_neg fun h => hb h.1]

end RedB.Comp
