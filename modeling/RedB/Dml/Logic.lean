import RedB.Dml.Cond
import RedB.Theory.ShortCircuit

/-!
# AND and OR

`exec_and` and `exec_or` test the operand on the left first. If it is null the result is null,
whatever the other operand is; so `NULL OR TRUE` is null where `TRUE OR NULL` is true. The order
of the operands does not matter for a condition without null operands, nor for one that does not
hold with null taken for false (`swaps_satisfied_iff`).
-/

namespace RedB.Dml

open ShortCircuit

variable {A : Arith} {row : View}

/-- The text of a truth value, and of null. -/
def truthText : Option Bool → Text
  | none => NULL_VALUE
  | some b => boolText b

/-- A condition of operands as an item. -/
def condItem : Logic Cond → Cond
  | .test c => c
  | .and l r => .op .and (condItem l) (condItem r)
  | .or l r => .op .or (condItem l) (condItem r)

/-- `res == "true"`: the row satisfies the condition. -/
def Cond.Satisfied (A : Arith) (row : View) (c : Cond) : Prop := c.eval A row = some (boolText true)

@[simp] theorem readBool_boolText (b : Bool) : readBool (boolText b) = b := by cases b <;> decide

theorem boolText_ne_nil (b : Bool) : boolText b ≠ [] := by cases b <;> decide

theorem truthText_inj {v w : Option Bool} : truthText v = truthText w ↔ v = w := by
  rcases v with _ | _ | _ <;> rcases w with _ | _ | _ <;> decide

/-- The operands of a node are set and evaluated by themselves. -/
theorem eval_op {o : Operator} {a b : Cond} {x y : Text} (ha : a.eval A row = some x) (hb : b.eval A row = some y) :
    ∃ a' b', (Cond.op o a b).eval A row = execCondition A (.op o a' b') ∧
      execCondition A a' = some x ∧ execCondition A b' = some y := by
  obtain ⟨a', hsa, hea⟩ := Option.bind_eq_some_iff.mp ha
  obtain ⟨b', hsb, heb⟩ := Option.bind_eq_some_iff.mp hb
  exact ⟨a', b', by simp [Cond.eval, setColumnValue, hsa, hsb], hea, heb⟩

/-- `vm::exec_and` of truth values and null. -/
theorem eval_and {a b : Cond} {va vb : Option Bool} (ha : a.eval A row = some (truthText va))
    (hb : b.eval A row = some (truthText vb)) :
    (Cond.op .and a b).eval A row = some (truthText (Logic.andThen va vb)) := by
  obtain ⟨a', b', heq, hl, hr⟩ := @eval_op _ _ .and _ _ _ _ ha hb
  rw [heq, execCondition, hl, hr]
  rcases va with _ | _ | _ <;> rcases vb with _ | _ | _ <;>
    simp [truthText, Logic.andThen, boolText_ne_nil, NULL_VALUE]

/-- `vm::exec_or` of truth values and null. -/
theorem eval_or {a b : Cond} {va vb : Option Bool} (ha : a.eval A row = some (truthText va))
    (hb : b.eval A row = some (truthText vb)) :
    (Cond.op .or a b).eval A row = some (truthText (Logic.orElse va vb)) := by
  obtain ⟨a', b', heq, hl, hr⟩ := @eval_op _ _ .or _ _ _ _ ha hb
  rw [heq, execCondition, hl, hr]
  rcases va with _ | _ | _ <;> rcases vb with _ | _ | _ <;>
    simp [truthText, Logic.orElse, boolText_ne_nil, NULL_VALUE]

/-- A condition of operands with truth values comes out as it does by short-circuit logic. -/
theorem eval_condItem {c : Logic Cond} {value : Cond → Option Bool}
    (hv : ∀ a ∈ c.tests, a.eval A row = some (truthText (value a))) :
    (condItem c).eval A row = some (truthText (c.eval value)) := by
  induction c with
  | test a => exact hv a (by simp [Logic.tests])
  | and l r ihl ihr =>
    have hl := ihl fun a ha => hv a (by simp [Logic.tests, ha])
    have hr := ihr fun a ha => hv a (by simp [Logic.tests, ha])
    exact eval_and hl hr
  | or l r ihl ihr =>
    have hl := ihl fun a ha => hv a (by simp [Logic.tests, ha])
    have hr := ihr fun a ha => hv a (by simp [Logic.tests, ha])
    exact eval_or hl hr

theorem satisfied_condItem {c : Logic Cond} {value : Cond → Option Bool}
    (hv : ∀ a ∈ c.tests, a.eval A row = some (truthText (value a))) :
    (condItem c).Satisfied A row ↔ c.eval value = some true := by
  rw [Cond.Satisfied, eval_condItem hv, Option.some.injEq, show boolText true = truthText (some true) from rfl,
    truthText_inj]

/-- The order of the operands of a condition. -/
theorem swaps_satisfied_iff {c : Logic Cond} {value : Cond → Option Bool}
    (hv : ∀ a ∈ c.tests, a.eval A row = some (truthText (value a))) :
    (∀ c', Logic.Swaps c c' → ((condItem c').Satisfied A row ↔ (condItem c).Satisfied A row)) ↔
      ¬ (c.Unknown value ∧ c.Holds value) := by
  rw [← Logic.swaps_eval_iff]
  refine forall₂_congr fun c' hs => ?_
  rw [satisfied_condItem hv, satisfied_condItem fun a ha => hv a (Logic.Swaps.mem_tests hs |>.mp ha)]

/-- `AND` and `OR` take operands in either order, unless the one on the left is null and the
condition holds by the other; a nested condition may have the operands of its nodes swapped, unless
an operand is null and the condition holds with null taken for false. -/
theorem and_or_symmetric_iff (A : Arith) (row : View) :
    (∀ (a b : Cond) (va vb : Option Bool), a.eval A row = some (truthText va) → b.eval A row = some (truthText vb) →
      (((Cond.op .or a b).Satisfied A row ↔ va = some true ∨ vb = some true) ∧
        ((Cond.op .and a b).Satisfied A row ↔ va = some true ∧ vb = some true) ↔ ¬ (va = none ∧ vb = some true))) ∧
    ∀ (c : Logic Cond) (value : Cond → Option Bool),
      (∀ a ∈ c.tests, a.eval A row = some (truthText (value a))) →
      ((∀ c', Logic.Swaps c c' → ((condItem c').Satisfied A row ↔ (condItem c).Satisfied A row)) ↔
        ¬ (c.Unknown value ∧ c.Holds value)) := by
  refine ⟨fun a b va vb ha hb => ?_, fun c value hv => swaps_satisfied_iff hv⟩
  rw [Cond.Satisfied, Cond.Satisfied, eval_or ha hb, eval_and ha hb, show boolText true = truthText (some true) from rfl,
    Option.some.injEq, Option.some.injEq, truthText_inj, truthText_inj]
  rcases va with _ | _ | _ <;> rcases vb with _ | _ | _ <;> simp [Logic.andThen, Logic.orElse]

/-! ### A row with a null -/

/-- Column `x` is null, column `y` is 1. -/
def halfEmpty : View where
  tbl := ("db".toList, "t".toList)
  valueAt name := if name = "x".toList then some [] else if name = "y".toList then some "1".toList else none

/-- The column is 1. -/
def isOne (name : Text) : Cond :=
  .op (.cmp .eq) (.column halfEmpty.tbl name .int false []) (.value .int "1".toList)

/-- `y = 1 OR FALSE` has no null operand. -/
theorem and_or_symmetric_ones :
    ∀ c', Logic.Swaps (.or (.test (isOne "y".toList)) (.test (.value .boolean "false".toList))) c' →
      ((condItem c').Satisfied wholeNumbers halfEmpty ↔
        (condItem (.or (.test (isOne "y".toList)) (.test (.value .boolean "false".toList)))).Satisfied wholeNumbers halfEmpty) := by
  refine ((and_or_symmetric_iff wholeNumbers halfEmpty).2 _ (fun a => some (a = isOne "y".toList)) fun a ha => ?_).mpr ?_
  · simp only [Logic.tests, List.cons_append, List.nil_append, List.mem_cons, List.not_mem_nil, or_false] at ha
    rcases ha with rfl | rfl <;> decide
  · rintro ⟨⟨a, -, hn⟩, -⟩
    cases hn

/-- `x = 1 OR y = 1` is not satisfied, `y = 1 OR x = 1` is. -/
theorem null_or_true :
    ¬ ∀ (A : Arith) (row : View),
      (∀ (a b : Cond) (va vb : Option Bool), a.eval A row = some (truthText va) → b.eval A row = some (truthText vb) →
        ((Cond.op .or a b).Satisfied A row ↔ va = some true ∨ vb = some true) ∧
          ((Cond.op .and a b).Satisfied A row ↔ va = some true ∧ vb = some true)) ∧
      ∀ (c : Logic Cond) (value : Cond → Option Bool),
        (∀ a ∈ c.tests, a.eval A row = some (truthText (value a))) →
        ∀ c', Logic.Swaps c c' → ((condItem c').Satisfied A row ↔ (condItem c).Satisfied A row) := by
  intro h
  have hx : (isOne "x".toList).eval wholeNumbers halfEmpty = some (truthText none) := by decide
  have hy : (isOne "y".toList).eval wholeNumbers halfEmpty = some (truthText (some true)) := by decide
  have hor := ((h wholeNumbers halfEmpty).1 _ _ _ _ hx hy).1.mpr (.inr rfl)
  rw [Cond.Satisfied, eval_or hx hy] at hor
  exact absurd hor (by decide)

end RedB.Dml
