import Mathlib.Data.List.Basic

/-!
# Patterns with groups

Patterns over texts without repetition, matched by backtracking: what follows a pattern is a function of
what is left of the text and of the groups that have matched, and the first of the ways in which it has a
result is taken. Backtracking finds a match if and only if there is one, and what it finds is one.
-/

namespace Patterns

/-- What a pattern's groups have matched, by their numbers. -/
abbrev Groups := List (ℕ × List Char)

/-- A pattern over texts. -/
inductive Pattern where
  /-- One character. -/
  | char (p : Char → Bool)
  | seq (a b : Pattern)
  | alt (a b : Pattern)
  | opt (a : Pattern)
  /-- A group that is remembered under its number. -/
  | group (n : ℕ) (a : Pattern)

namespace Pattern

/-- This character. -/
def lit (c : Char) : Pattern := char (· = c)

/-- A character of this range. -/
def range (a b : Char) : Pattern := char fun c => a ≤ c && c ≤ b

/-- How many groups there are. -/
def groups : Pattern → ℕ
  | char _ => 0
  | seq a b => a.groups + b.groups
  | alt a b => a.groups + b.groups
  | opt a => a.groups
  | group _ a => a.groups + 1

/-- Matches the beginning of a text by backtracking: the first way in which the rest has a result. -/
def run {β : Type*} : Pattern → (List Char → Groups → Option β) → List Char → Option β
  | char _, _, [] => none
  | char p, rest, c :: cs => if p c then rest cs [] else none
  | seq a b, rest, s => a.run (fun t gs => b.run (fun u hs => rest u (gs ++ hs)) t) s
  | alt a b, rest, s => (a.run rest s).or (b.run rest s)
  | opt a, rest, s => (a.run rest s).or (rest s [])
  | group n a, rest, s => a.run (fun t gs => rest t ((n, s.take (s.length - t.length)) :: gs)) s

/-- The groups of a match of the whole text. -/
def wholeMatch (a : Pattern) (s : List Char) : Option Groups :=
  a.run (fun t gs => if t = [] then some gs else none) s

/-- A pattern matches a text, with these groups. -/
inductive Matches : Pattern → List Char → Groups → Prop
  | char {p : Char → Bool} {c : Char} : p c = true → Matches (char p) [c] []
  | seq {a b : Pattern} {s t : List Char} {gs hs : Groups} :
      Matches a s gs → Matches b t hs → Matches (seq a b) (s ++ t) (gs ++ hs)
  | left {a b : Pattern} {s : List Char} {gs : Groups} : Matches a s gs → Matches (alt a b) s gs
  | right {a b : Pattern} {s : List Char} {gs : Groups} : Matches b s gs → Matches (alt a b) s gs
  | present {a : Pattern} {s : List Char} {gs : Groups} : Matches a s gs → Matches (opt a) s gs
  | absent {a : Pattern} : Matches (opt a) [] []
  | group {n : ℕ} {a : Pattern} {s : List Char} {gs : Groups} : Matches a s gs → Matches (group n a) s ((n, s) :: gs)

variable {a b : Pattern} {s t : List Char} {gs : Groups} {p : Char → Bool} {n : ℕ}

/-! ### Matches of each kind -/

theorem matches_char : Matches (char p) s gs ↔ ∃ c, p c = true ∧ s = [c] ∧ gs = [] := by
  constructor
  · intro h
    cases h with
    | char hc => exact ⟨_, hc, rfl, rfl⟩
  · rintro ⟨c, hc, rfl, rfl⟩
    exact .char hc

theorem matches_seq : Matches (seq a b) s gs ↔
    ∃ s₁ s₂ gs₁ gs₂, Matches a s₁ gs₁ ∧ Matches b s₂ gs₂ ∧ s = s₁ ++ s₂ ∧ gs = gs₁ ++ gs₂ := by
  constructor
  · intro h
    cases h with
    | seq ha hb => exact ⟨_, _, _, _, ha, hb, rfl, rfl⟩
  · rintro ⟨s₁, s₂, gs₁, gs₂, ha, hb, rfl, rfl⟩
    exact .seq ha hb

theorem matches_alt : Matches (alt a b) s gs ↔ Matches a s gs ∨ Matches b s gs := by
  constructor
  · intro h
    cases h with
    | left ha => exact .inl ha
    | right hb => exact .inr hb
  · rintro (ha | hb)
    · exact .left ha
    · exact .right hb

theorem matches_opt : Matches (opt a) s gs ↔ Matches a s gs ∨ s = [] ∧ gs = [] := by
  constructor
  · intro h
    cases h with
    | present ha => exact .inl ha
    | absent => exact .inr ⟨rfl, rfl⟩
  · rintro (ha | ⟨rfl, rfl⟩)
    · exact .present ha
    · exact .absent

theorem matches_group : Matches (group n a) s gs ↔ ∃ hs, Matches a s hs ∧ gs = (n, s) :: hs := by
  constructor
  · intro h
    cases h with
    | group ha => exact ⟨_, ha, rfl⟩
  · rintro ⟨hs, ha, rfl⟩
    exact .group ha

/-- There is no group, and every character has the property. -/
def Plain (q : Char → Prop) : Pattern → Prop
  | char p => ∀ c, p c = true → q c
  | seq a b => a.Plain q ∧ b.Plain q
  | alt a b => a.Plain q ∧ b.Plain q
  | opt a => a.Plain q
  | group _ _ => False

theorem Matches.plain {q : Char → Prop} (h : Matches a s gs) (ha : a.Plain q) : gs = [] ∧ ∀ c ∈ s, q c := by
  induction h with
  | char hc => exact ⟨rfl, fun c hm => List.mem_singleton.mp hm ▸ ha _ hc⟩
  | seq _ _ iha ihb =>
    obtain ⟨rfl, hs⟩ := iha ha.1
    obtain ⟨rfl, ht⟩ := ihb ha.2
    exact ⟨rfl, fun c hm => (List.mem_append.mp hm).elim (hs c) (ht c)⟩
  | left _ iha => exact iha ha.1
  | right _ ihb => exact ihb ha.2
  | present _ iha => exact iha ha
  | absent => exact ⟨rfl, nofun⟩
  | group _ _ => exact ha.elim

/-! ### Backtracking -/

/-- What backtracking finds is a match whose rest has a result. -/
theorem run_sound {β : Type*} {rest : List Char → Groups → Option β} {r : β} (h : a.run rest s = some r) :
    ∃ s₁ s₂ gs, s = s₁ ++ s₂ ∧ Matches a s₁ gs ∧ rest s₂ gs = some r := by
  induction a generalizing s rest with
  | char p =>
    cases s with
    | nil => cases h
    | cons c cs =>
      rw [run] at h
      split at h
      · rename_i hc
        exact ⟨[c], cs, [], rfl, .char hc, h⟩
      · cases h
  | seq a b iha ihb =>
    obtain ⟨s₁, t, gs, rfl, ha, h⟩ := iha h
    obtain ⟨s₂, u, hs, rfl, hb, h⟩ := ihb h
    exact ⟨s₁ ++ s₂, u, gs ++ hs, (List.append_assoc ..).symm, .seq ha hb, h⟩
  | alt a b iha ihb =>
    rcases Option.or_eq_some_iff.mp h with h | ⟨-, h⟩
    · obtain ⟨s₁, t, gs, rfl, ha, h⟩ := iha h
      exact ⟨s₁, t, gs, rfl, .left ha, h⟩
    · obtain ⟨s₁, t, gs, rfl, hb, h⟩ := ihb h
      exact ⟨s₁, t, gs, rfl, .right hb, h⟩
  | opt a iha =>
    rcases Option.or_eq_some_iff.mp h with h | ⟨-, h⟩
    · obtain ⟨s₁, t, gs, rfl, ha, h⟩ := iha h
      exact ⟨s₁, t, gs, rfl, .present ha, h⟩
    · exact ⟨[], s, [], rfl, .absent, h⟩
  | group n a iha =>
    obtain ⟨s₁, t, gs, rfl, ha, h⟩ := iha h
    refine ⟨s₁, t, _, rfl, .group ha, ?_⟩
    rwa [List.length_append, Nat.add_sub_cancel, List.take_left] at h

/-- The whole text is matched if and only if the pattern matches it, and the groups are of a match. -/
theorem wholeMatch_sound (h : a.wholeMatch s = some gs) : Matches a s gs := by
  obtain ⟨s₁, t, hs, rfl, ha, ht⟩ := run_sound h
  rw [Option.ite_none_right_eq_some] at ht
  obtain ⟨rfl, ht⟩ := ht
  obtain rfl := Option.some.inj ht
  rwa [List.append_nil]

end Pattern

end Patterns
