import Mathlib.Logic.Relation

/-!
# Short-circuit logic

Conditions of "and" and "or" over tests that may be unknown, tested from the left: an unknown
test on the left makes a condition unknown whatever stands on the right. Which conditions may
have the operands of their nodes swapped follows: those without an unknown test, and those that
do not hold even if unknown tests are taken to fail.
-/

namespace ShortCircuit

open Relation

/-- A condition over tests. -/
inductive Logic (α : Type*) where
  | test (a : α)
  | and (left right : Logic α)
  | or (left right : Logic α)

namespace Logic

variable {α : Type*} (value : α → Option Bool)

/-- "And" from the left, nothing if it is unknown. -/
def andThen : Option Bool → Option Bool → Option Bool
  | none, _ => none
  | some false, _ => some false
  | some true, r => r

/-- "Or" from the left, nothing if it is unknown. -/
def orElse : Option Bool → Option Bool → Option Bool
  | none, _ => none
  | some true, _ => some true
  | some false, r => r

/-- The value of a condition, tested from the left. -/
def eval : Logic α → Option Bool
  | test a => value a
  | and l r => andThen l.eval r.eval
  | or l r => orElse l.eval r.eval

/-- A condition holds if unknown tests are taken to fail. -/
def Holds : Logic α → Prop
  | test a => value a = some true
  | and l r => l.Holds ∧ r.Holds
  | or l r => l.Holds ∨ r.Holds

/-- The tests of a condition. -/
def tests : Logic α → List α
  | test a => [a]
  | and l r => l.tests ++ r.tests
  | or l r => l.tests ++ r.tests

/-- Some test is unknown. -/
def Unknown (c : Logic α) : Prop := ∃ a ∈ c.tests, value a = none

/-- The operands of one node are swapped. -/
inductive Swap : Logic α → Logic α → Prop
  | and (l r : Logic α) : Swap (and l r) (and r l)
  | or (l r : Logic α) : Swap (or l r) (or r l)
  | andLeft {l l' : Logic α} (r : Logic α) (h : Swap l l') : Swap (and l r) (and l' r)
  | andRight (l : Logic α) {r r' : Logic α} (h : Swap r r') : Swap (and l r) (and l r')
  | orLeft {l l' : Logic α} (r : Logic α) (h : Swap l l') : Swap (or l r) (or l' r)
  | orRight (l : Logic α) {r r' : Logic α} (h : Swap r r') : Swap (or l r) (or l r')

/-- The operands of nodes are swapped, any number of times. -/
abbrev Swaps : Logic α → Logic α → Prop := ReflTransGen Swap

variable {value}

theorem orElse_eq_true {l r : Option Bool} :
    orElse l r = some true ↔ l = some true ∨ (l = some false ∧ r = some true) := by
  rcases l with _ | _ | _ <;> simp [orElse]

theorem andThen_eq_true {l r : Option Bool} : andThen l r = some true ↔ l = some true ∧ r = some true := by
  rcases l with _ | _ | _ <;> simp [andThen]

/-! ### Swapping -/

theorem Swap.mem_tests {c c' : Logic α} (h : Swap c c') {a : α} : a ∈ c'.tests ↔ a ∈ c.tests := by
  induction h with
  | and l r | or l r => simp only [tests, List.mem_append, or_comm]
  | andLeft r _ ih | andRight l _ ih | orLeft r _ ih | orRight l _ ih => simp only [tests, List.mem_append, ih]

theorem Swap.holds {c c' : Logic α} (h : Swap c c') : c'.Holds value ↔ c.Holds value := by
  induction h with
  | and l r => exact and_comm
  | or l r => exact or_comm
  | andLeft r _ ih | andRight l _ ih | orLeft r _ ih | orRight l _ ih => simp only [Holds, ih]

theorem Swaps.mem_tests {c c' : Logic α} (h : Swaps c c') {a : α} : a ∈ c'.tests ↔ a ∈ c.tests := by
  induction h with
  | refl => rfl
  | tail _ h ih => exact h.mem_tests.trans ih

theorem Swaps.unknown {c c' : Logic α} (h : Swaps c c') : c'.Unknown value ↔ c.Unknown value :=
  exists_congr fun _ => and_congr_left' h.mem_tests

theorem Swaps.holds {c c' : Logic α} (h : Swaps c c') : c'.Holds value ↔ c.Holds value := by
  induction h with
  | refl => rfl
  | tail _ h ih => exact h.holds.trans ih

theorem Swaps.and {l l' r r' : Logic α} (hl : Swaps l l') (hr : Swaps r r') : Swaps (and l r) (and l' r') :=
  (hl.lift (fun c => Logic.and c r) fun _ _ => .andLeft r).trans (hr.lift (Logic.and l') fun _ _ => .andRight l')

theorem Swaps.or {l l' r r' : Logic α} (hl : Swaps l l') (hr : Swaps r r') : Swaps (or l r) (or l' r') :=
  (hl.lift (fun c => Logic.or c r) fun _ _ => .orLeft r).trans (hr.lift (Logic.or l') fun _ _ => .orRight l')

/-! ### What is tested and what holds -/

/-- What comes out true holds. -/
theorem holds_of_eval {c : Logic α} (h : c.eval value = some true) : c.Holds value := by
  induction c with
  | test a => exact h
  | and l r ihl ihr =>
    obtain ⟨hl, hr⟩ := andThen_eq_true.mp h
    exact ⟨ihl hl, ihr hr⟩
  | or l r ihl ihr =>
    rcases orElse_eq_true.mp h with hl | ⟨-, hr⟩
    · exact .inl (ihl hl)
    · exact .inr (ihr hr)

/-- Without unknown tests a condition comes out true or false, as it holds or not. -/
theorem eval_of_known {c : Logic α} (h : ¬ c.Unknown value) :
    (c.eval value = some true ∧ c.Holds value) ∨ (c.eval value = some false ∧ ¬ c.Holds value) := by
  induction c with
  | test a =>
    have hne : value a ≠ none := fun hn => h ⟨a, by simp [tests], hn⟩
    rcases hv : value a with _ | _ | _
    · exact absurd hv hne
    · exact .inr ⟨hv, by simp [Holds, hv]⟩
    · exact .inl ⟨hv, hv⟩
  | and l r ihl ihr =>
    have hl : ¬ l.Unknown value := fun ⟨a, ha, hn⟩ => h ⟨a, by simp [tests, ha], hn⟩
    have hr : ¬ r.Unknown value := fun ⟨a, ha, hn⟩ => h ⟨a, by simp [tests, ha], hn⟩
    rcases ihl hl with ⟨el, hl⟩ | ⟨el, hl⟩ <;> rcases ihr hr with ⟨er, hr⟩ | ⟨er, hr⟩ <;>
      simp [eval, Holds, el, er, andThen, hl, hr]
  | or l r ihl ihr =>
    have hl : ¬ l.Unknown value := fun ⟨a, ha, hn⟩ => h ⟨a, by simp [tests, ha], hn⟩
    have hr : ¬ r.Unknown value := fun ⟨a, ha, hn⟩ => h ⟨a, by simp [tests, ha], hn⟩
    rcases ihl hl with ⟨el, hl⟩ | ⟨el, hl⟩ <;> rcases ihr hr with ⟨er, hr⟩ | ⟨er, hr⟩ <;>
      simp [eval, Holds, el, er, orElse, hl, hr]

/-- What holds comes out true in some order: with an operand of each "or" that holds on the left. -/
theorem exists_swaps_true {c : Logic α} (h : c.Holds value) : ∃ c', Swaps c c' ∧ c'.eval value = some true := by
  induction c with
  | test a => exact ⟨test a, .refl, h⟩
  | and l r ihl ihr =>
    obtain ⟨l', hl, el⟩ := ihl h.1
    obtain ⟨r', hr, er⟩ := ihr h.2
    exact ⟨.and l' r', hl.and hr, andThen_eq_true.mpr ⟨el, er⟩⟩
  | or l r ihl ihr =>
    rcases h with h | h
    · obtain ⟨l', hl, el⟩ := ihl h
      exact ⟨.or l' r, hl.or .refl, orElse_eq_true.mpr (.inl el)⟩
    · obtain ⟨r', hr, er⟩ := ihr h
      exact ⟨.or r' l, .head (.or l r) (hr.or .refl), orElse_eq_true.mpr (.inl er)⟩

/-- What has an unknown test comes out unknown in some order: with the unknown test first. -/
theorem exists_swaps_unknown {c : Logic α} (h : c.Unknown value) : ∃ c', Swaps c c' ∧ c'.eval value = none := by
  obtain ⟨a, ha, hn⟩ := h
  induction c with
  | test b =>
    obtain rfl := List.mem_singleton.mp ha
    exact ⟨test a, .refl, hn⟩
  | and l r ihl ihr =>
    rcases List.mem_append.mp ha with ha | ha
    · obtain ⟨l', hl, el⟩ := ihl ha
      exact ⟨.and l' r, hl.and .refl, by rw [eval, el, andThen]⟩
    · obtain ⟨r', hr, er⟩ := ihr ha
      exact ⟨.and r' l, .head (.and l r) (hr.and .refl), by rw [eval, er, andThen]⟩
  | or l r ihl ihr =>
    rcases List.mem_append.mp ha with ha | ha
    · obtain ⟨l', hl, el⟩ := ihl ha
      exact ⟨.or l' r, hl.or .refl, by rw [eval, el, orElse]⟩
    · obtain ⟨r', hr, er⟩ := ihr ha
      exact ⟨.or r' l, .head (.or l r) (hr.or .refl), by rw [eval, er, orElse]⟩

/-- The order of operands does not matter, unless a test is unknown and the condition holds all
the same. -/
theorem swaps_eval_iff (c : Logic α) :
    (∀ c', Swaps c c' → (c'.eval value = some true ↔ c.eval value = some true)) ↔ ¬ (c.Unknown value ∧ c.Holds value) := by
  constructor
  · rintro h ⟨hu, hh⟩
    obtain ⟨c₁, h₁, e₁⟩ := exists_swaps_true hh
    obtain ⟨c₂, h₂, e₂⟩ := exists_swaps_unknown hu
    have := (h c₂ h₂).mpr ((h c₁ h₁).mp e₁)
    rw [e₂] at this
    cases this
  · intro h c' hs
    by_cases hu : c.Unknown value
    · have hh : ¬ c.Holds value := fun hh => h ⟨hu, hh⟩
      exact iff_of_false (fun e => hh (hs.holds.mp (holds_of_eval e))) fun e => hh (holds_of_eval e)
    · rcases eval_of_known hu with ⟨e, hh⟩ | ⟨e, hh⟩ <;>
        rcases eval_of_known (fun hu' => hu (hs.unknown.mp hu')) with ⟨e', hh'⟩ | ⟨e', hh'⟩
      · exact iff_of_true e' e
      · exact absurd (hs.holds.mpr hh) hh'
      · exact absurd (hs.holds.mp hh') hh
      · simp [e, e']

end Logic

end ShortCircuit
