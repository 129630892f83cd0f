import RedB.Dml.Row

/-!
# Conditions

Conditions and expressions are items. The item of a column holds a value, the one that was
set last; before a condition is tested, the values of a row are set in it. An empty value
is null.
-/

namespace RedB.Dml

/-- The operators of items. -/
inductive Operator where
  | add | sub | mul | div
  | cmp (c : Cmp)
  | and | or
deriving DecidableEq, Repr

/-- The types of items that hold a value of their own. -/
inductive ValueType where
  | int | float | varchar | boolean
deriving DecidableEq, Repr

/-- Database and table. -/
abbrev Name := Text × Text

/-- An item. -/
inductive Cond where
  /-- `TYPE_INT`, `TYPE_FLOAT`, `TYPE_VARCHAR` and `TYPE_BOOLEAN` -/
  | value (type : ValueType) (value : Text)
  /-- `TYPE_COLUMN`, with `col_type`, `m_negate` and `m_value`. -/
  | column (tbl : Name) (colName : Text) (type : ColType) (negate : Bool) (value : Text)
  | op (op : Operator) (left right : Cond)
deriving DecidableEq, Repr

/-- What of a row is set in items: the table it is of and its values by column names. -/
structure View where
  tbl : Name
  valueAt : Text → Option Text

variable (A : Arith)

/-- `NULL_VALUE` -/
def NULL_VALUE : Text := []

/-- `std::boolalpha <<` -/
def boolText (b : Bool) : Text := if b then "true".toList else "false".toList

/-- `std::boolalpha >>`, false if there is none. -/
def readBool (text : Text) : Bool := "true".toList.isPrefixOf (text.dropWhile isSpace)

/-- `std::istringstream >>` of a text. -/
def readWord (text : Text) : Text := (text.dropWhile isSpace).takeWhile fun c => !isSpace c

/-- `item::value`, of the item of a column: what `m_value` is then. -/
def setValue (type : ColType) (negate : Bool) (old value : Text) : Option Text :=
  if negate then
    match type with
    | .float => (A.stof value).map fun x => A.fixed2 (A.neg x)
    | .int => (stoi value).map fun z => intToText (-z)
    | _ => some old
  else some value

/-- `vm::set_column_value` -/
def setColumnValue (row : View) : Cond → Option Cond
  | .value type value => some (.value type value)
  | .column tbl colName type negate value =>
      if row.tbl = tbl then do
        let new ← row.valueAt colName
        let value ← setValue A type negate value new
        some (.column tbl colName type negate value)
      else some (.column tbl colName type negate value)
  | .op op left right => do
      let left ← setColumnValue row left
      let right ← setColumnValue row right
      some (.op op left right)

/-! ### Constants -/

/-- `vm::compact_add` and its like, for two floats or a float and an integer. -/
def arithFloat (op : A.F → A.F → A.F) (left right : Text) : Option Cond := do
  let l ← A.stof left
  let r ← A.stof right
  some (.value .float (A.toString (op l r)))

/-- The `int32_t` of an integer: what is out of its range wraps around. -/
def wrap (z : ℤ) : ℤ := z.bmod (2 ^ 32)

/-- `vm::compact_add` and its like, for two integers. -/
def arithInt (op : ℤ → ℤ → ℤ) (left right : Text) : Option Cond := do
  let l ← stoi left
  let r ← stoi right
  some (.value .int (intToText (wrap (op l r))))

/-- A comparison of integers. -/
def Cmp.int : Cmp → ℤ → ℤ → Bool
  | .eq, l, r => l = r
  | .ge, l, r => l ≥ r
  | .gt, l, r => l > r
  | .le, l, r => l ≤ r
  | .lt, l, r => l < r
  | .ne, l, r => l ≠ r

/-- A comparison of texts, byte by byte. -/
def Cmp.text : Cmp → Text → Text → Bool
  | .eq, l, r => l = r
  | .ge, l, r => !decide (l < r)
  | .gt, l, r => decide (r < l)
  | .le, l, r => !decide (r < l)
  | .lt, l, r => decide (l < r)
  | .ne, l, r => l ≠ r

/-- What becomes of an operator between two values, nothing if it throws. -/
def fold (op : Operator) (lt : ValueType) (l : Text) (rt : ValueType) (r : Text) : Option Cond :=
  let same := Cond.op op (.value lt l) (.value rt r)
  let mixed := (lt = .float ∧ rt = .float) ∨ (lt = .float ∧ rt = .int) ∨ (lt = .int ∧ rt = .float)
  let ints := lt = .int ∧ rt = .int
  match op with
  | .add => if mixed then arithFloat A A.add l r else if ints then arithInt (· + ·) l r else some same
  | .sub => if mixed then arithFloat A A.sub l r else if ints then arithInt (· - ·) l r else some same
  | .mul => if mixed then arithFloat A A.mul l r else if ints then arithInt (· * ·) l r else some same
  | .div => if mixed ∨ ints then arithFloat A A.div l r else some same
  | .cmp c =>
      if mixed then do
        let x ← A.stof l
        let y ← A.stof r
        some (.value .boolean (boolText (A.cmp c x y)))
      else if ints then do
        let x ← stoi l
        let y ← stoi r
        some (.value .boolean (boolText (c.int x y)))
      else if lt = .varchar ∧ rt = .varchar then some (.value .boolean (boolText (c.text l r)))
      else some same
  | .and =>
      if lt = .boolean ∧ rt = .boolean then some (.value .boolean (boolText (readBool l && readBool r))) else some same
  | .or =>
      if lt = .boolean ∧ rt = .boolean then some (.value .boolean (boolText (readBool l || readBool r))) else some same

/-- `vm::compact_condition` -/
def compactCondition : Cond → Option Cond
  | .op op left right => do
      let left ← compactCondition left
      let right ← compactCondition right
      match left, right with
      | .value lt l, .value rt r => fold A op lt l rt r
      | left, right => some (.op op left right)
  | c => some c

/-! ### Evaluation -/

/-- `vm::exec_add` and its like: two values that are not null. -/
def execArith (op : A.F → A.F → Option A.F) (l r : Text) : Option Text := do
  let x ← A.stofAll l
  let y ← A.stofAll r
  let z ← op x y
  some (A.put z)

/-- `vm::exec_cmpeq` and its like: two values that are not null. -/
def execCmp (c : Cmp) (l r : Text) : Text :=
  match A.stofAll l, A.stofAll r with
  | some x, some y => boolText (A.cmp c x y)
  | _, _ => boolText (c.text l r)

/-- `vm::exec_condition`: the result, nothing if it throws. -/
def execCondition : Cond → Option Text
  | .value .boolean value => some (if value ≠ NULL_VALUE then readWord value else NULL_VALUE)
  | .value _ value => some value
  | .column _ _ _ _ value => some value
  | .op op left right => do
      let l ← execCondition left
      if l = NULL_VALUE then some NULL_VALUE
      else
        match op with
        | .and => if !readBool l then some l else do
            let r ← execCondition right
            if r = NULL_VALUE then some NULL_VALUE else if !readBool r then some r else some (boolText true)
        | .or => if readBool l then some l else do
            let r ← execCondition right
            if r = NULL_VALUE then some NULL_VALUE else if readBool r then some r else some (boolText false)
        | .add => do
            let r ← execCondition right
            if r = NULL_VALUE then some NULL_VALUE else execArith A (fun x y => some (A.add x y)) l r
        | .sub => do
            let r ← execCondition right
            if r = NULL_VALUE then some NULL_VALUE else execArith A (fun x y => some (A.sub x y)) l r
        | .mul => do
            let r ← execCondition right
            if r = NULL_VALUE then some NULL_VALUE else execArith A (fun x y => some (A.mul x y)) l r
        | .div => do
            let r ← execCondition right
            if r = NULL_VALUE then some NULL_VALUE
            else execArith A (fun x y => if A.isZero y then none else some (A.div x y)) l r
        | .cmp c => do
            let r ← execCondition right
            if r = NULL_VALUE then some NULL_VALUE else some (execCmp A c l r)

/-- `vm::exec_assignment`, of the right side: columns and truth values leave the result as it
was. -/
def execAssignment (res : Text) : Cond → Option Text
  | .value .boolean _ | .column .. => some res
  | c => execCondition A c

/-! ### Conditions of one row -/

/-- The items are the same but for the values of columns. -/
def Cond.Same : Cond → Cond → Prop
  | .value type text, c => c = Cond.value type text
  | .column tbl colName type negate _, c => ∃ text, c = Cond.column tbl colName type negate text
  | .op o l r, c => ∃ l' r', c = Cond.op o l' r' ∧ l.Same l' ∧ r.Same r'

/-- All columns are of this table. The value of a column that is no number and has a minus
sign is never set and is null, as it was made. -/
def Cond.On (tbl : Name) : Cond → Prop
  | .value _ _ => True
  | .column name _ type negate text => name = tbl ∧ (negate = true → type = .float ∨ type = .int ∨ text = NULL_VALUE)
  | .op _ l r => l.On tbl ∧ r.On tbl

/-- The value of a condition on a row. -/
def Cond.eval (row : View) (c : Cond) : Option Text := (setColumnValue A row c).bind (execCondition A)

variable {A}

theorem Cond.Same.refl (c : Cond) : c.Same c := by
  induction c with
  | value => rfl
  | column tbl colName type negate value => exact ⟨value, rfl⟩
  | op o l r ihl ihr => exact ⟨l, r, rfl, ihl, ihr⟩

theorem Cond.Same.trans {a b c : Cond} (h : a.Same b) (h' : b.Same c) : a.Same c := by
  induction a generalizing b c with
  | value type value =>
    obtain rfl : b = .value type value := h
    exact h'
  | column tbl colName type negate value =>
    obtain ⟨value', rfl⟩ := h
    exact h'
  | op o l r ihl ihr =>
    obtain ⟨l', r', rfl, hl, hr⟩ := h
    obtain ⟨l'', r'', rfl, hl', hr'⟩ := h'
    exact ⟨l'', r'', rfl, ihl hl hl', ihr hr hr'⟩

/-- Setting values changes nothing else. -/
theorem same_setColumnValue {row : View} {c c' : Cond} (h : setColumnValue A row c = some c') : c.Same c' := by
  induction c generalizing c' with
  | value type value => exact (Option.some.inj h).symm
  | column tbl colName type negate value =>
    rw [setColumnValue] at h
    split at h
    · obtain ⟨new, -, h⟩ := Option.bind_eq_some_iff.mp h
      obtain ⟨v, -, h⟩ := Option.bind_eq_some_iff.mp h
      exact ⟨v, (Option.some.inj h).symm⟩
    · exact ⟨value, (Option.some.inj h).symm⟩
  | op o l r ihl ihr =>
    obtain ⟨l', hl, h⟩ := Option.bind_eq_some_iff.mp h
    obtain ⟨r', hr, h⟩ := Option.bind_eq_some_iff.mp h
    exact ⟨l', r', (Option.some.inj h).symm, ihl hl, ihr hr⟩

/-- What has been set before does not matter. -/
theorem setColumnValue_same {row : View} {c c' : Cond} (hs : c.Same c') (ho : c.On row.tbl) (ho' : c'.On row.tbl) :
    setColumnValue A row c' = setColumnValue A row c := by
  induction c generalizing c' with
  | value type value =>
    obtain rfl : c' = .value type value := hs
    rfl
  | column tbl colName type negate value =>
    obtain ⟨value', rfl⟩ := hs
    obtain ⟨rfl, hn⟩ := ho
    obtain ⟨-, hn'⟩ := ho'
    simp only [setColumnValue, if_true]
    congr 1
    funext new
    have hset : setValue A type negate value' new = setValue A type negate value new := by
      unfold setValue
      cases negate with
      | false => rfl
      | true =>
        rcases hn rfl with rfl | rfl | rfl
        · rfl
        · rfl
        · rcases hn' rfl with rfl | rfl | rfl <;> rfl
    rw [hset]
  | op o l r ihl ihr =>
    obtain ⟨l', r', rfl, hl, hr⟩ := hs
    simp only [setColumnValue, ihl hl ho.1 ho'.1, ihr hr ho.2 ho'.2]

/-- Setting values keeps the columns on their table. -/
theorem on_setColumnValue {row : View} {tbl : Name} {c c' : Cond} (h : setColumnValue A row c = some c') (ho : c.On tbl) :
    c'.On tbl := by
  induction c generalizing c' with
  | value type value =>
    obtain rfl := Option.some.inj h
    trivial
  | column name colName type negate value =>
    rw [setColumnValue] at h
    split at h
    · obtain ⟨new, -, h⟩ := Option.bind_eq_some_iff.mp h
      obtain ⟨v, hv, h⟩ := Option.bind_eq_some_iff.mp h
      obtain rfl := Option.some.inj h
      refine ⟨ho.1, fun hneg => ?_⟩
      rcases ho.2 hneg with rfl | rfl | rfl
      · exact .inl rfl
      · exact .inr (.inl rfl)
      · subst hneg
        cases type with
        | float => exact .inl rfl
        | int => exact .inr (.inl rfl)
        | _ => exact .inr (.inr (Option.some.inj hv).symm)
    · obtain rfl := Option.some.inj h
      exact ho
  | op o l r ihl ihr =>
    obtain ⟨l', hl, h⟩ := Option.bind_eq_some_iff.mp h
    obtain ⟨r', hr, h⟩ := Option.bind_eq_some_iff.mp h
    obtain rfl := Option.some.inj h
    exact ⟨ihl hl ho.1, ihr hr ho.2⟩

/-- Whole numbers, for runs in which there are no others; no text is a date. -/
def wholeNumbers : Arith where
  F := ℤ
  neg x := -x
  stof := stoi
  fixed2 := intToText
  add x y := x + y
  sub x y := x - y
  mul x y := x * y
  div x y := x / y
  cmp := Cmp.int
  isZero x := x = 0
  stofAll text := (stoi text).filter fun _ => text.all Char.isDigit
  put := intToText
  toString := intToText
  fixed _ := intToText
  isDate _ _ := false
  stof_nil := rfl

end RedB.Dml
