import Mathlib.Data.List.Basic
import Mathlib.Data.Set.Basic
import Mathlib.Logic.Function.Basic

/-!
# Permissions of the first scope

A permission is asked for along a list of scopes, the narrowest first, and the first scope that
has an entry decides. What is granted to a scope is added to its entry, which is made if there
is none.

A grant is noticed where its scope is reached, that is where no narrower scope decides
(`allows_grant_of_reaches`, `allows_grant_of_not_reaches`). If the scope had an entry, then
nothing is lost there and the grant is all that is won. If it had none, then the new entry hides
what the broader scopes have allowed (`allows_mono_iff`).
-/

namespace Scopes

variable {K P : Type} {entries : K → Option (Set P)} {scope : K} {granted : Set P} {ks : List K} {p : P}

/-- The first scope with an entry allows it. -/
def Allows (entries : K → Option (Set P)) (ks : List K) (p : P) : Prop := ∃ s, ks.findSome? entries = some s ∧ p ∈ s

/-- Nothing narrower decides. -/
def Reaches (entries : K → Option (Set P)) (scope : K) (ks : List K) : Prop :=
  ∃ pre post, ks = pre ++ scope :: post ∧ scope ∉ pre ∧ ∀ k ∈ pre, entries k = none

/-- What is granted to a scope. -/
def grant [DecidableEq K] (entries : K → Option (Set P)) (scope : K) (granted : Set P) : K → Option (Set P) :=
  Function.update entries scope (some ((entries scope).getD ∅ ∪ granted))

theorem allows_of_entry {s : Set P} (h : ks.findSome? entries = some s) : Allows entries ks p ↔ p ∈ s := by
  simp only [Allows, h, Option.some.injEq, exists_eq_left']

theorem not_allows_nil : ¬Allows entries [] p := by
  rintro ⟨s, hs, -⟩
  cases hs

theorem allows_cons_none {k : K} (h : entries k = none) : Allows entries (k :: ks) p ↔ Allows entries ks p := by
  rw [Allows, List.findSome?_cons, h]
  rfl

theorem allows_cons_some {k : K} {s : Set P} (h : entries k = some s) : Allows entries (k :: ks) p ↔ p ∈ s :=
  allows_of_entry (by rw [List.findSome?_cons, h])

/-- Scopes without an entry do not count. -/
theorem allows_append {pre : List K} (h : ∀ k ∈ pre, entries k = none) : Allows entries (pre ++ ks) p ↔ Allows entries ks p := by
  rw [Allows, List.findSome?_append, List.findSome?_eq_none_iff.mpr h]
  rfl

theorem allows_congr {entries' : K → Option (Set P)} (h : ∀ k ∈ ks, entries' k = entries k) :
    Allows entries' ks p ↔ Allows entries ks p := by
  have hf : ks.findSome? entries' = ks.findSome? entries := by
    induction ks with
    | nil => rfl
    | cons k ks ih =>
      rw [List.findSome?_cons, List.findSome?_cons, h k List.mem_cons_self, ih fun k hk => h k (List.mem_cons_of_mem _ hk)]
  rw [Allows, hf, Allows]

/-- A scope is reached, or another one decides before it, or it is not asked. -/
theorem reaches_or (entries : K → Option (Set P)) (scope : K) (ks : List K) : Reaches entries scope ks ∨
    scope ∉ ks ∨ ∃ pre k post, ks = pre ++ k :: post ∧ k ≠ scope ∧ scope ∉ pre ∧ (∀ k ∈ pre, entries k = none) ∧ entries k ≠ none := by
  classical
  induction ks with
  | nil => exact Or.inr (Or.inl (List.not_mem_nil))
  | cons k ks ih =>
    by_cases hk : k = scope
    · exact Or.inl ⟨[], ks, hk ▸ rfl, List.not_mem_nil, fun _ h => absurd h List.not_mem_nil⟩
    · by_cases he : entries k = none
      · rcases ih with ⟨pre, post, rfl, hn, hpre⟩ | hn | ⟨pre, k', post, rfl, hk', hn, hpre, he'⟩
        · refine Or.inl ⟨k :: pre, post, rfl, List.not_mem_cons_of_ne_of_not_mem (Ne.symm hk) hn, fun j hj => ?_⟩
          rcases List.mem_cons.mp hj with rfl | hj
          · exact he
          · exact hpre j hj
        · exact Or.inr (Or.inl (List.not_mem_cons_of_ne_of_not_mem (Ne.symm hk) hn))
        · refine Or.inr (Or.inr ⟨k :: pre, k', post, rfl, hk', List.not_mem_cons_of_ne_of_not_mem (Ne.symm hk) hn, fun j hj => ?_, he'⟩)
          rcases List.mem_cons.mp hj with rfl | hj
          · exact he
          · exact hpre j hj
      · exact Or.inr (Or.inr ⟨[], k, ks, rfl, hk, List.not_mem_nil, fun _ h => absurd h List.not_mem_nil, he⟩)

theorem allows_of_reaches {s : Set P} (h : Reaches entries scope ks) (hs : entries scope = some s) : Allows entries ks p ↔ p ∈ s := by
  obtain ⟨pre, post, rfl, -, hpre⟩ := h
  rw [allows_append hpre, allows_cons_some hs]

variable [DecidableEq K]

theorem grant_of_ne {k : K} (h : k ≠ scope) : grant entries scope granted k = entries k := Function.update_of_ne h ..

theorem grant_self : grant entries scope granted scope = some ((entries scope).getD ∅ ∪ granted) := Function.update_self ..

/-- Where the scope is reached, its entry and what has been granted decide. -/
theorem allows_grant_of_reaches (h : Reaches entries scope ks) :
    Allows (grant entries scope granted) ks p ↔ p ∈ (entries scope).getD ∅ ∪ granted := by
  obtain ⟨pre, post, rfl, hn, hpre⟩ := h
  have hpre' : ∀ k ∈ pre, grant entries scope granted k = none := fun k hk =>
    (grant_of_ne (ne_of_mem_of_not_mem hk hn)).trans (hpre k hk)
  rw [allows_append hpre', allows_cons_some grant_self]

/-- Where it is not reached, nothing changes. -/
theorem allows_grant_of_not_reaches (h : ¬Reaches entries scope ks) :
    Allows (grant entries scope granted) ks p ↔ Allows entries ks p := by
  rcases reaches_or entries scope ks with hr | hn | ⟨pre, k, post, rfl, hk, hn, hpre, he⟩
  · exact absurd hr h
  · exact allows_congr fun k hk => grant_of_ne (ne_of_mem_of_not_mem hk hn)
  · obtain ⟨s, hs⟩ := Option.ne_none_iff_exists'.mp he
    have hpre' : ∀ j ∈ pre, grant entries scope granted j = none := fun j hj =>
      (grant_of_ne (ne_of_mem_of_not_mem hj hn)).trans (hpre j hj)
    rw [allows_append hpre', allows_append hpre, allows_cons_some ((grant_of_ne hk).trans hs), allows_cons_some hs]

/-- Nothing is won but what has been granted. -/
theorem allows_of_allows_grant (h : Allows (grant entries scope granted) ks p) (hp : p ∉ granted) : Allows entries ks p := by
  by_cases hr : Reaches entries scope ks
  · rcases (allows_grant_of_reaches hr).mp h with hs | hs
    · cases he : entries scope with
      | none =>
        rw [he] at hs
        exact absurd hs (Set.notMem_empty p)
      | some s =>
        rw [he] at hs
        exact (allows_of_reaches hr he).mpr hs
    · exact absurd hs hp
  · exact (allows_grant_of_not_reaches hr).mp h

/-- Nothing is lost along a list of scopes if and only if the scope had an entry, or is not
reached, or nothing else than what has been granted was allowed. -/
theorem allows_mono_iff : (Allows entries ks p → Allows (grant entries scope granted) ks p) ↔
    (Reaches entries scope ks → entries scope = none → Allows entries ks p → p ∈ granted) := by
  by_cases hr : Reaches entries scope ks
  · rw [allows_grant_of_reaches hr]
    cases he : entries scope with
    | none =>
      simp only [Option.getD_none, Set.empty_union, hr, forall_const]
    | some s =>
      simp only [Option.getD_some, allows_of_reaches hr he, reduceCtorEq, IsEmpty.forall_iff, implies_true, iff_true]
      exact Or.inl
  · rw [allows_grant_of_not_reaches hr]
    exact ⟨fun _ h => absurd h hr, fun _ => id⟩

end Scopes
