import Mathlib.Algebra.Order.BigOperators.Group.List
import Mathlib.Algebra.GroupWithZero.Nat
import Mathlib.Algebra.Order.Group.Nat
import Mathlib.Data.List.Forall2

/-!
# Cells between bars

Cells stand between bars with a blank on each side. The same line can be taken apart into cells in more
than one way where cells have bars of their own; it is the same cells if each has as many symbols that are
no blanks (`frame_inj`).
-/

namespace Frames

variable {α : Type*} (bar blank : α)

/-- What stands behind the first bar. -/
def frame : List (List α) → List α
  | [] => []
  | cell :: cells => blank :: (cell ++ blank :: bar :: frame cells)

/-- A cell has a text, with blanks before it and behind it. -/
def Pads (cell text : List α) : Prop := ∃ i j, cell = List.replicate i blank ++ text ++ List.replicate j blank

variable {bar blank} {cells cells' : List (List α)} {cell text : List α}

theorem length_frame : (frame bar blank cells).length = (cells.map List.length).sum + 3 * cells.length := by
  induction cells with
  | nil => rfl
  | cons cell cells ih =>
    simp only [frame, List.length_cons, List.length_append, List.map_cons, List.sum_cons, ih]
    omega

theorem mem_frame {a : α} (hbar : a ≠ bar) (hblank : a ≠ blank) : a ∈ frame bar blank cells ↔ ∃ cell ∈ cells, a ∈ cell := by
  induction cells with
  | nil => simp [frame]
  | cons cell cells ih => simp [frame, hbar, hblank, ih]

theorem countP_frame {p : α → Bool} (hblank : p blank = false) :
    (frame bar blank cells).countP p = (cells.map (List.countP p)).sum + cells.length * [bar].countP p := by
  induction cells with
  | nil => simp [frame]
  | cons cell cells ih =>
    have hb : ¬p blank = true := by simp [hblank]
    rw [frame, List.countP_cons_of_neg hb, List.countP_append, List.countP_cons_of_neg hb, ← List.singleton_append, List.countP_append, ih,
      List.map_cons, List.sum_cons, List.length_cons, Nat.succ_mul]
    omega

theorem Pads.countP {p : α → Bool} (hblank : p blank = false) (h : Pads blank cell text) : cell.countP p = text.countP p := by
  obtain ⟨i, j, rfl⟩ := h
  have hrep : ∀ n, (List.replicate n blank).countP p = 0 := fun n =>
    List.countP_eq_zero.mpr fun a ha => by simp [List.eq_of_mem_replicate ha, hblank]
  rw [List.countP_append, List.countP_append, hrep, hrep, Nat.zero_add, Nat.add_zero]

/-- As many of the symbols as the texts have. -/
theorem map_countP {p : α → Bool} (hblank : p blank = false) {texts : List (List α)} (h : List.Forall₂ (Pads blank) cells texts) :
    cells.map (List.countP p) = texts.map (List.countP p) := by
  induction h with
  | nil => rfl
  | cons hp h ih => rw [List.map_cons, List.map_cons, hp.countP hblank, ih]

theorem exists_pads {texts : List (List α)} (h : List.Forall₂ (Pads blank) cells texts) (ht : text ∈ texts) :
    ∃ cell ∈ cells, Pads blank cell text := by
  induction h with
  | nil => cases ht
  | cons hp h ih =>
    rcases List.mem_cons.mp ht with rfl | ht
    · exact ⟨_, List.mem_cons_self, hp⟩
    · obtain ⟨cell, hcell, hpads⟩ := ih ht
      exact ⟨cell, List.mem_cons_of_mem _ hcell, hpads⟩

theorem Pads.mem {a : α} (h : Pads blank cell text) (ha : a ∈ text) : a ∈ cell := by
  obtain ⟨i, j, rfl⟩ := h
  exact List.mem_append_left _ (List.mem_append_right _ ha)

theorem Pads.length_le (h : Pads blank cell text) : text.length ≤ cell.length := by
  obtain ⟨i, j, rfl⟩ := h
  simp only [List.length_append]
  omega

/-- Numbers that are no more than others and have their sum are the same numbers. -/
theorem eq_of_sum_eq {ι : Type*} {f g : ι → ℕ} {l : List ι} (h : ∀ x ∈ l, f x ≤ g x) (hs : (l.map f).sum = (l.map g).sum) :
    ∀ x ∈ l, f x = g x := by
  induction l with
  | nil => nofun
  | cons x l ih =>
    have hx := h x List.mem_cons_self
    have hl : ∀ y ∈ l, f y ≤ g y := fun y hy => h y (List.mem_cons_of_mem _ hy)
    have hsum := List.sum_le_sum hl
    rw [List.map_cons, List.map_cons, List.sum_cons, List.sum_cons] at hs
    exact List.forall_mem_cons.mpr ⟨by omega, ih hl (by omega)⟩

variable [DecidableEq α]

/-- Whatever follows, a cell ends where as many symbols that are no blanks have been read. -/
theorem cell_inj (hne : bar ≠ blank) {cell' rest rest' : List α} (h : cell ++ blank :: bar :: rest = cell' ++ blank :: bar :: rest')
    (hc : cell.countP (· ≠ blank) = cell'.countP (· ≠ blank)) : cell = cell' ∧ rest = rest' := by
  have key : ∀ {cell d rest rest' : List α}, blank :: bar :: rest = d ++ blank :: bar :: rest' →
      cell.countP (· ≠ blank) = (cell ++ d).countP (· ≠ blank) → d = [] := by
    intro cell d rest rest' h hc
    rw [List.countP_append] at hc
    have hd : d.countP (· ≠ blank) = 0 := by omega
    match d with
    | [] => rfl
    | [a] =>
      obtain ⟨-, h⟩ := List.cons.inj h
      exact absurd (List.cons.inj h).1 hne
    | a :: b :: d =>
      obtain ⟨-, h⟩ := List.cons.inj h
      obtain ⟨rfl, -⟩ := List.cons.inj h
      have hb := List.countP_eq_zero.mp hd bar (by simp)
      exact absurd (decide_eq_true hne) hb
  rcases List.append_eq_append_iff.mp h with ⟨d, rfl, h'⟩ | ⟨d, rfl, h'⟩
  · obtain rfl := key h' hc
    rw [List.append_nil]
    exact ⟨rfl, (List.cons.inj (List.cons.inj h').2).2⟩
  · obtain rfl := key h' hc.symm
    rw [List.append_nil]
    exact ⟨rfl, (List.cons.inj (List.cons.inj h').2).2.symm⟩

/-- The cells of a line, if each has as many symbols that are no blanks. -/
theorem frame_inj (hne : bar ≠ blank) (h : frame bar blank cells = frame bar blank cells')
    (hc : cells.map (List.countP (· ≠ blank)) = cells'.map (List.countP (· ≠ blank))) : cells = cells' := by
  induction cells generalizing cells' with
  | nil =>
    cases cells' with
    | nil => rfl
    | cons cell' cells' => cases hc
  | cons cell cells ih =>
    cases cells' with
    | nil => cases hc
    | cons cell' cells' =>
      obtain ⟨hcell, hcells⟩ := List.cons.inj hc
      obtain ⟨rfl, hframe⟩ := cell_inj hne (List.cons.inj h).2 hcell
      rw [ih hframe hcells]

end Frames
