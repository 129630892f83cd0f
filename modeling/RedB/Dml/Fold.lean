import RedB.Dml.Cond

/-!
# Constants are folded

`compact_condition` computes operators between two constants once. It goes by the types of the
constants and computes with integers of 32 bits; `exec_condition` goes by their texts and computes
with floating point numbers. Folding preserves the value of an expression and of all expressions
in it exactly if no literal is met that is no number of its size, and both ways of computing come to
the same text wherever an operator is between two constants (`preserves_iff`).
-/

namespace RedB.Dml

variable (A : Arith)

/-- An expression has the same value when its constants have been folded. -/
def Preserves (c : Cond) : Prop := ∀ v, execCondition A c = some v → (compactCondition A c).bind (execCondition A) = some v

/-- An expression and the expressions in it. -/
def Cond.subs : Cond → List Cond
  | .op o left right => .op o left right :: (left.subs ++ right.subs)
  | c => [c]

/-- The literals are numbers and texts. -/
def Cond.Literals : Cond → Prop
  | .value type _ => type ≠ .boolean
  | .column .. => True
  | .op _ left right => left.Literals ∧ right.Literals

/-! ### Constants by their types -/

/-- The types of numbers. -/
def ValueType.isNumber : ValueType → Bool
  | .int | .float => true
  | _ => false

/-- The type of what is made of two constants of these types, nothing if they are left as they are. -/
def Operator.constType (o : Operator) (a b : ValueType) : Option ValueType :=
  match o with
  | .add | .sub | .mul => if a.isNumber ∧ b.isNumber then some (if a = .int ∧ b = .int then .int else .float) else none
  | .div => if a.isNumber ∧ b.isNumber then some .float else none
  | .cmp _ => if (a.isNumber ∧ b.isNumber) ∨ (a = .varchar ∧ b = .varchar) then some .boolean else none
  | .and | .or => if a = .boolean ∧ b = .boolean then some .boolean else none

/-- The type of the constant that an expression is: a literal, or an operator that is computed between two
constants. -/
def Cond.constType : Cond → Option ValueType
  | .value type _ => some type
  | .column .. => none
  | .op o left right => do
      let a ← left.constType
      let b ← right.constType
      o.constType a b

/-- The operators of integers. -/
def Operator.int : Operator → Option (ℤ → ℤ → ℤ)
  | .add => some (· + ·)
  | .sub => some (· - ·)
  | .mul => some (· * ·)
  | _ => none

/-- The operators of floating point numbers. -/
def Operator.float : Operator → Option (A.F → A.F → A.F)
  | .add => some A.add
  | .sub => some A.sub
  | .mul => some A.mul
  | .div => some A.div
  | _ => none

/-! ### Where both ways of computing come to the same -/

/-- A constant is read as a number where the constant on the other side is one too: as an `int32_t` if both are
integers that are not divided, and else as a float. -/
def Reads (o : Operator) (other type : ValueType) (text : Text) : Prop :=
  match type with
  | .int => if other = .int ∧ o ≠ .div then ∃ m, stoi text = some m else ∃ p, A.stof text = some p
  | .float => ∃ p, A.stof text = some p
  | _ => True

/-- The literals that meet a constant are read. -/
def LiteralsRead : Cond → Prop
  | .op o left right => LiteralsRead left ∧ LiteralsRead right ∧
      ∀ a b, left.constType = some a → right.constType = some b → o.constType a b ≠ none →
        (∀ text, left = .value a text → Reads A o b a text) ∧ ∀ text, right = .value b text → Reads A o a b text
  | _ => True

/-- A comparison of two texts: by numbers if both of them are numbers, and else byte by byte. -/
def Cmp.byNumbers (c : Cmp) (x y : Text) : Bool :=
  match A.stofAll x, A.stofAll y with
  | some p, some q => A.cmp c p q
  | _, _ => c.text x y

/-- What an operator makes of two constants, nothing if a number is not read: of two integers in 32 bits unless they are
divided, of other numbers in floating point, and of two texts byte by byte. -/
def Operator.written (o : Operator) (a : ValueType) (x : Text) (b : ValueType) (y : Text) : Option Text :=
  match o with
  | .and => some (boolText (readBool x && readBool y))
  | .or => some (boolText (readBool x || readBool y))
  | .cmp c =>
      if a = .int ∧ b = .int then do
        let m ← stoi x
        let n ← stoi y
        some (boolText (c.int m n))
      else if a.isNumber ∧ b.isNumber then do
        let p ← A.stof x
        let q ← A.stof y
        some (boolText (A.cmp c p q))
      else some (boolText (c.text x y))
  | o =>
      if a = .int ∧ b = .int ∧ o ≠ .div then do
        let g ← o.int
        let m ← stoi x
        let n ← stoi y
        some (intToText (wrap (g m n)))
      else do
        let f ← o.float A
        let p ← A.stof x
        let q ← A.stof y
        some (A.toString (f p q))

/-- The text of the constant that an expression is. -/
def Cond.constText : Cond → Option Text
  | .value _ text => some text
  | .column .. => none
  | .op o left right => do
      let a ← left.constType
      let b ← right.constType
      let x ← left.constText
      let y ← right.constText
      o.written A a x b y

/-- An operator between constants of these types and texts comes to the same at run time: the stream prints the number
that is computed in floating point as it is written otherwise; a comparison by numbers is the one of integers, or of
texts that are not null. -/
def SameResult (o : Operator) (a : ValueType) (x : Text) (b : ValueType) (y : Text) : Prop :=
  match o with
  | .and | .or => True
  | .cmp c =>
      if a = .int ∧ b = .int then ∀ m n, stoi x = some m → stoi y = some n → c.byNumbers A x y = c.int m n
      else if a.isNumber ∧ b.isNumber then ∀ p q, A.stof x = some p → A.stof y = some q → c.byNumbers A x y = A.cmp c p q
      else if a = .varchar ∧ b = .varchar then x ≠ NULL_VALUE ∧ y ≠ NULL_VALUE ∧ c.byNumbers A x y = c.text x y
      else True
  | o => a.isNumber → b.isNumber → ∀ f p q, o.float A = some f → A.stofAll x = some p → A.stofAll y = some q →
      (o = .div → A.isZero q = false) → o.written A a x b y = some (A.put (f p q))

/-- If the expression has a value, its literals are read, and its operator comes to the same at run time if it is
between two constants. -/
def FoldsWell (c : Cond) : Prop :=
  (execCondition A c).isSome → LiteralsRead A c ∧ ∀ o left right, c = .op o left right →
    ∀ a b x y, left.constType = some a → right.constType = some b → left.constText A = some x → right.constText A = some y →
      SameResult A o a x b y

/-- What `std::to_string` has written is read by `std::stof`. -/
structure ReadsBack : Prop where
  float : ∀ p, ∃ q, A.stof (A.toString p) = some q
  int : ∀ z, -2 ^ 31 ≤ z → z < 2 ^ 31 → ∃ q, A.stof (intToText z) = some q

variable {A} {o : Operator} {a b t : ValueType} {x y : Text} {c l r : Cond}

theorem Cond.self_mem_subs (c : Cond) : c ∈ c.subs := by
  cases c with
  | op => exact List.mem_cons_self
  | _ => exact List.mem_singleton.mpr rfl

/-- The value of an operator depends on the values of its operands only. -/
theorem execCondition_congr {op : Operator} {l l' r r' : Cond} {v : Text}
    (hl : ∀ x, execCondition A l = some x → execCondition A l' = some x)
    (hr : ∀ x, execCondition A r = some x → execCondition A r' = some x)
    (h : execCondition A (.op op l r) = some v) : execCondition A (.op op l' r') = some v := by
  rw [execCondition] at h ⊢
  obtain ⟨x, hx, h⟩ := Option.bind_eq_some_iff.mp h
  rw [hl x hx, Option.bind_eq_bind, Option.bind_some]
  have hright : ∀ f : Text → Option Text, (execCondition A r).bind f = some v → (execCondition A r').bind f = some v := by
    intro f hf
    obtain ⟨y, hy, hf⟩ := Option.bind_eq_some_iff.mp hf
    rw [hr y hy, Option.bind_some, hf]
  split at h
  · rename_i hn
    rw [if_pos hn]
    exact h
  · rename_i hn
    rw [if_neg hn]
    cases op with
    | and =>
      dsimp only at h ⊢
      split at h
      · rename_i hb
        rw [if_pos hb]
        exact h
      · rename_i hb
        rw [if_neg hb]
        exact hright _ h
    | or =>
      dsimp only at h ⊢
      split at h
      · rename_i hb
        rw [if_pos hb]
        exact h
      · rename_i hb
        rw [if_neg hb]
        exact hright _ h
    | _ => exact hright _ h

/-! ### What is made of constants -/

theorem wrap_range (z : ℤ) : -2 ^ 31 ≤ wrap z ∧ wrap z < 2 ^ 31 := by
  have hle := Int.le_bmod (x := z) (m := 2 ^ 32) (by decide)
  have hlt := Int.bmod_lt (x := z) (m := 2 ^ 32) (by decide)
  rw [wrap]
  omega

/-- A constant that has been computed. -/
def Computed (A : Arith) (type : ValueType) (text : Text) : Prop :=
  match type with
  | .int => (∃ m, stoi text = some m) ∧ ∃ p, A.stof text = some p
  | .float => ∃ p, A.stof text = some p
  | .boolean => ∃ b, text = boolText b
  | .varchar => False

theorem Computed.reads (h : Computed A t x) (o : Operator) (other : ValueType) : Reads A o other t x := by
  cases t with
  | int =>
    rw [Reads]
    split
    · exact h.1
    · exact h.2
  | float => exact h
  | boolean => trivial
  | varchar => exact h.elim

theorem computed_wrap (hA : ReadsBack A) (z : ℤ) : Computed A .int (intToText (wrap z)) := by
  obtain ⟨hle, hlt⟩ := wrap_range z
  exact ⟨⟨wrap z, by rw [stoi_intToText, int32_eq_some.mpr ⟨⟨hle, hlt⟩, rfl⟩]⟩, hA.int _ hle hlt⟩

/-- The operators that are computed between two constants. -/
theorem constType_cases (h : o.constType a b = some t) :
    (∃ g, o.int = some g ∧ a = .int ∧ b = .int ∧ t = .int) ∨
    (∃ f, o.float A = some f ∧ a.isNumber = true ∧ b.isNumber = true ∧ ¬(a = .int ∧ b = .int ∧ o ≠ .div) ∧ t = .float) ∨
    (∃ c, o = .cmp c ∧ (a.isNumber = true ∧ b.isNumber = true ∨ a = .varchar ∧ b = .varchar) ∧ t = .boolean) ∨
    ((o = .and ∨ o = .or) ∧ a = .boolean ∧ b = .boolean ∧ t = .boolean) := by
  have hnumber : ∀ g, o.int = some g → ∀ f, o.float A = some f → o.constType a b =
      (if a.isNumber ∧ b.isNumber then some (if a = .int ∧ b = .int then .int else .float) else none) →
      (∃ g, o.int = some g ∧ a = .int ∧ b = .int ∧ t = .int) ∨
        ∃ f, o.float A = some f ∧ a.isNumber = true ∧ b.isNumber = true ∧ ¬(a = .int ∧ b = .int ∧ o ≠ .div) ∧ t = .float := by
    intro g hg f hf he
    rw [he, Option.ite_none_right_eq_some, Option.some.injEq] at h
    obtain ⟨hn, rfl⟩ := h
    by_cases hi : a = .int ∧ b = .int
    · exact .inl ⟨g, hg, hi.1, hi.2, if_pos hi⟩
    · exact .inr ⟨f, hf, hn.1, hn.2, fun h => hi ⟨h.1, h.2.1⟩, if_neg hi⟩
  cases o with
  | add => exact (hnumber _ rfl _ rfl rfl).imp_right .inl
  | sub => exact (hnumber _ rfl _ rfl rfl).imp_right .inl
  | mul => exact (hnumber _ rfl _ rfl rfl).imp_right .inl
  | div =>
    obtain ⟨hn, ht⟩ := Option.ite_none_right_eq_some.mp h
    exact .inr (.inl ⟨A.div, rfl, hn.1, hn.2, fun h => h.2.2 rfl, (Option.some.inj ht).symm⟩)
  | cmp c =>
    obtain ⟨hn, ht⟩ := Option.ite_none_right_eq_some.mp h
    exact .inr (.inr (.inl ⟨c, rfl, hn, (Option.some.inj ht).symm⟩))
  | and =>
    obtain ⟨hn, ht⟩ := Option.ite_none_right_eq_some.mp h
    exact .inr (.inr (.inr ⟨.inl rfl, hn.1, hn.2, (Option.some.inj ht).symm⟩))
  | or =>
    obtain ⟨hn, ht⟩ := Option.ite_none_right_eq_some.mp h
    exact .inr (.inr (.inr ⟨.inr rfl, hn.1, hn.2, (Option.some.inj ht).symm⟩))

theorem fold_open (h : o.constType a b = none) : fold A o a x b y = some (.op o (.value a x) (.value b y)) := by
  cases o <;> cases a <;> cases b <;> first | rfl | cases h

/-- What folding writes. -/
theorem fold_written (h : o.constType a b = some t) : fold A o a x b y = (o.written A a x b y).map (.value t) := by
  have hint : ∀ g : ℤ → ℤ → ℤ, arithInt g x y =
      ((stoi x).bind fun m => (stoi y).bind fun n => some (intToText (wrap (g m n)))).map (.value .int) := by
    intro g
    simp only [arithInt, Option.bind_eq_bind, Option.map_bind, Function.comp_def, Option.map_some]
  have hfloat : ∀ f : A.F → A.F → A.F, arithFloat A f x y =
      ((A.stof x).bind fun p => (A.stof y).bind fun q => some (A.toString (f p q))).map (.value .float) := by
    intro f
    simp only [arithFloat, Option.bind_eq_bind, Option.map_bind, Function.comp_def, Option.map_some]
  cases o with
  | cmp c =>
    cases a <;> cases b <;> first
      | cases h; done
      | (obtain rfl := Option.some.inj h
         first
         | rfl
         | simp [fold, Operator.written, ValueType.isNumber, Option.map_bind, Function.comp_def])
  | _ =>
    cases a <;> cases b <;> first
      | cases h; done
      | (obtain rfl := Option.some.inj h
         first
         | exact hint _
         | exact hfloat _
         | rfl)

theorem written_int {g : ℤ → ℤ → ℤ} (h : o.int = some g) : o.written A .int x .int y =
    (stoi x).bind fun m => (stoi y).bind fun n => some (intToText (wrap (g m n))) := by
  cases o <;> first | cases h; rfl | cases h

theorem written_float {f : A.F → A.F → A.F} (h : o.float A = some f) (hn : ¬(a = .int ∧ b = .int ∧ o ≠ .div)) :
    o.written A a x b y = (A.stof x).bind fun p => (A.stof y).bind fun q => some (A.toString (f p q)) := by
  cases o with
  | cmp => cases h
  | and => cases h
  | or => cases h
  | _ =>
    obtain rfl := Option.some.inj h
    exact if_neg hn

theorem written_cmp_int (c : Cmp) : Operator.written A (.cmp c) .int x .int y =
    (stoi x).bind fun m => (stoi y).bind fun n => some (boolText (c.int m n)) := rfl

theorem written_cmp_float (c : Cmp) (ha : a.isNumber = true) (hb : b.isNumber = true) (hn : ¬(a = .int ∧ b = .int)) :
    Operator.written A (.cmp c) a x b y = (A.stof x).bind fun p => (A.stof y).bind fun q => some (boolText (A.cmp c p q)) := by
  rw [Operator.written, if_neg hn, if_pos ⟨ha, hb⟩]
  rfl

theorem written_cmp_varchar (c : Cmp) : Operator.written A (.cmp c) .varchar x .varchar y = some (boolText (c.text x y)) := rfl

/-- Integers that are not divided are read as such. -/
theorem reads_int (ho : o ≠ .div) : Reads A o .int .int x ↔ ∃ m, stoi x = some m := by rw [Reads, if_pos ⟨rfl, ho⟩]

/-- All other numbers are read as floats. -/
theorem reads_float (ha : a.isNumber = true) (hn : ¬(a = .int ∧ b = .int ∧ o ≠ .div)) : Reads A o b a x ↔ ∃ p, A.stof x = some p := by
  cases a with
  | int => rw [Reads, if_neg fun h => hn ⟨rfl, h⟩]
  | float => exact Iff.rfl
  | varchar => cases ha
  | boolean => cases ha

/-- What is made of two constants that are read. -/
theorem written_computed (hA : ReadsBack A) (ht : o.constType a b = some t) (hx : Reads A o b a x) (hy : Reads A o a b y) :
    ∃ z, o.written A a x b y = some z ∧ Computed A t z := by
  rcases constType_cases (A := A) ht with ⟨g, hg, rfl, rfl, rfl⟩ | ⟨f, hf, ha, hb, hn, rfl⟩ | ⟨c, rfl, hab, rfl⟩ | ⟨ho, rfl, rfl, rfl⟩
  · have ho : o ≠ .div := by
      rintro rfl
      cases hg
    obtain ⟨m, hm⟩ := (reads_int ho).mp hx
    obtain ⟨n, hn⟩ := (reads_int ho).mp hy
    refine ⟨_, ?_, computed_wrap hA (g m n)⟩
    rw [written_int hg, hm, hn]
    rfl
  · obtain ⟨p, hp⟩ := (reads_float ha hn).mp hx
    obtain ⟨q, hq⟩ := (reads_float hb fun h => hn ⟨h.2.1, h.1, h.2.2⟩).mp hy
    refine ⟨_, ?_, hA.float (f p q)⟩
    rw [written_float hf hn, hp, hq]
    rfl
  · rcases hab with ⟨ha, hb⟩ | ⟨rfl, rfl⟩
    · by_cases hi : a = .int ∧ b = .int
      · obtain ⟨rfl, rfl⟩ := hi
        obtain ⟨m, hm⟩ := (reads_int Operator.noConfusion).mp hx
        obtain ⟨n, hn⟩ := (reads_int Operator.noConfusion).mp hy
        refine ⟨_, ?_, c.int m n, rfl⟩
        rw [written_cmp_int, hm, hn]
        rfl
      · obtain ⟨p, hp⟩ := (reads_float ha fun h => hi ⟨h.1, h.2.1⟩).mp hx
        obtain ⟨q, hq⟩ := (reads_float hb fun h => hi ⟨h.2.1, h.1⟩).mp hy
        refine ⟨_, ?_, A.cmp c p q, rfl⟩
        rw [written_cmp_float c ha hb hi, hp, hq]
        rfl
    · exact ⟨_, written_cmp_varchar c, c.text x y, rfl⟩
  · rcases ho with rfl | rfl
    · exact ⟨_, rfl, readBool x && readBool y, rfl⟩
    · exact ⟨_, rfl, readBool x || readBool y, rfl⟩

/-- Nothing is made of a constant that is not read. -/
theorem written_none (ht : o.constType a b = some t) (h : ¬(Reads A o b a x ∧ Reads A o a b y)) : o.written A a x b y = none := by
  -- what is wanted of both texts is not there
  have hnone : ∀ {α β : Type} (f : Text → Option α) (k : α → α → Option β), (Reads A o b a x ↔ ∃ m, f x = some m) →
      (Reads A o a b y ↔ ∃ m, f y = some m) → ((f x).bind fun m => (f y).bind fun n => k m n) = none := by
    intro α β f k hx hy
    rw [hx, hy] at h
    cases hfx : f x with
    | none => rfl
    | some m =>
      cases hfy : f y with
      | none => rfl
      | some n => exact absurd ⟨⟨m, hfx⟩, ⟨n, hfy⟩⟩ h
  rcases constType_cases (A := A) ht with ⟨g, hg, rfl, rfl, rfl⟩ | ⟨f, hf, ha, hb, hn, rfl⟩ | ⟨c, rfl, hab, rfl⟩ | ⟨ho, rfl, rfl, rfl⟩
  · have ho : o ≠ .div := by
      rintro rfl
      cases hg
    rw [written_int hg]
    exact hnone stoi _ (reads_int ho) (reads_int ho)
  · rw [written_float hf hn]
    exact hnone A.stof _ (reads_float ha hn) (reads_float hb fun h => hn ⟨h.2.1, h.1, h.2.2⟩)
  · rcases hab with ⟨ha, hb⟩ | ⟨rfl, rfl⟩
    · by_cases hi : a = .int ∧ b = .int
      · obtain ⟨rfl, rfl⟩ := hi
        rw [written_cmp_int]
        exact hnone stoi _ (reads_int Operator.noConfusion) (reads_int Operator.noConfusion)
      · rw [written_cmp_float c ha hb hi]
        exact hnone A.stof _ (reads_float ha fun h => hi ⟨h.1, h.2.1⟩) (reads_float hb fun h => hi ⟨h.2.1, h.1⟩)
    · exact absurd ⟨trivial, trivial⟩ h
  · exact absurd ⟨trivial, trivial⟩ h

/-! ### Folding -/

/-- What folding makes of an operator between folded operands. -/
def folded (A : Arith) (op : Operator) : Cond → Cond → Option Cond
  | .value lt l, .value rt r => fold A op lt l rt r
  | l, r => some (.op op l r)

theorem compactCondition_op {op : Operator} {left right l r : Cond} (hl : compactCondition A left = some l)
    (hr : compactCondition A right = some r) : compactCondition A (.op op left right) = folded A op l r := by
  rw [compactCondition, hl, hr]
  cases l <;> cases r <;> rfl

/-- An operator is left as it is if one of its operands is no constant. -/
theorem folded_open (h : (∀ t x, l ≠ .value t x) ∨ ∀ t x, r ≠ .value t x) : folded A o l r = some (.op o l r) := by
  cases l with
  | value t x =>
    cases r with
    | value t' y => exact (h.elim (fun h => h t x rfl) fun h => h t' y rfl).elim
    | _ => rfl
  | _ => rfl

/-- An expression whose literals are read becomes a constant of its type, or stays an expression. -/
structure Folds (A : Arith) (c c' : Cond) : Prop where
  eq : compactCondition A c = some c'
  const : ∀ t, c.constType = some t → ∃ x, c' = .value t x ∧ c.constText A = some x ∧ (c = .value t x ∨ Computed A t x)
  rest : c.constType = none → ∀ t x, c' ≠ .value t x

theorem constType_op (hl : l.constType = some a) (hr : r.constType = some b) : (Cond.op o l r).constType = o.constType a b := by
  rw [Cond.constType, hl, hr]
  rfl

theorem constText_op (hl : l.constType = some a) (hr : r.constType = some b) (hx : l.constText A = some x) (hy : r.constText A = some y) :
    (Cond.op o l r).constText A = o.written A a x b y := by
  rw [Cond.constText, hl, hr, hx, hy]
  rfl

/-- A constant operand is read: it is a literal, or has been computed. -/
theorem reads_of_folds (h : c = .value t x ∨ Computed A t x) (hlit : ∀ text, c = .value t text → Reads A o b t text) : Reads A o b t x :=
  h.elim (hlit x) fun hc => hc.reads o b

theorem folds_of_read (hA : ReadsBack A) (h : LiteralsRead A c) : ∃ c', Folds A c c' := by
  induction c with
  | value type text =>
    refine ⟨_, rfl, fun t ht => ?_, fun ht => ?_⟩
    · obtain rfl := Option.some.inj ht
      exact ⟨text, rfl, rfl, .inl rfl⟩
    · cases ht
  | column tbl colName type negate text =>
    refine ⟨_, rfl, fun t ht => ?_, fun _ t x he => ?_⟩
    · cases ht
    · cases he
  | op o left right ihl ihr =>
    obtain ⟨hl, hr, hlits⟩ := h
    obtain ⟨l, hl⟩ := ihl hl
    obtain ⟨r, hr⟩ := ihr hr
    have hopen : (∀ t x, l ≠ .value t x) ∨ (∀ t x, r ≠ .value t x) → (Cond.op o left right).constType = none →
        ∃ c', Folds A (.op o left right) c' := by
      refine fun hlr hn => ⟨.op o l r, ?_, fun t ht => ?_, fun _ t x he => ?_⟩
      · rw [compactCondition_op hl.eq hr.eq, folded_open hlr]
      · rw [hn] at ht
        cases ht
      · cases he
    cases hlt : left.constType with
    | none => exact hopen (.inl (hl.rest hlt)) (by rw [Cond.constType, hlt]; rfl)
    | some a =>
      cases hrt : right.constType with
      | none => exact hopen (.inr (hr.rest hrt)) (by rw [Cond.constType, hlt, hrt]; rfl)
      | some b =>
        obtain ⟨x, rfl, hxt, hx⟩ := hl.const a hlt
        obtain ⟨y, rfl, hyt, hy⟩ := hr.const b hrt
        have heq : compactCondition A (.op o left right) = fold A o a x b y := compactCondition_op hl.eq hr.eq
        have htype := constType_op (o := o) hlt hrt
        cases ht : o.constType a b with
        | none =>
          refine ⟨.op o (.value a x) (.value b y), ?_, fun t hc => ?_, fun _ t x he => ?_⟩
          · rw [heq, fold_open ht]
          · rw [htype, ht] at hc
            cases hc
          · cases he
        | some t =>
          obtain ⟨hxr, hyr⟩ := hlits a b hlt hrt (by rw [ht]; exact Option.some_ne_none t)
          obtain ⟨z, hz, hcomp⟩ := written_computed hA ht (reads_of_folds hx hxr) (reads_of_folds hy hyr)
          refine ⟨.value t z, ?_, fun t' hc => ?_, fun hc => ?_⟩
          · rw [heq, fold_written ht, hz]
            rfl
          · rw [htype, ht] at hc
            obtain rfl := Option.some.inj hc
            refine ⟨z, rfl, ?_, .inr hcomp⟩
            rw [constText_op hlt hrt hxt hyt, hz]
          · rw [htype, ht] at hc
            cases hc

/-- The folding throws at a literal that is not read. -/
theorem compactCondition_throws (hA : ReadsBack A) (h : ¬LiteralsRead A c) : compactCondition A c = none := by
  induction c with
  | value => exact absurd trivial h
  | column => exact absurd trivial h
  | op o left right ihl ihr =>
    by_cases hl : LiteralsRead A left
    swap
    · rw [compactCondition, ihl hl]
      rfl
    obtain ⟨l, hfl⟩ := folds_of_read hA hl
    by_cases hr : LiteralsRead A right
    swap
    · rw [compactCondition, hfl.eq, ihr hr]
      rfl
    obtain ⟨r, hfr⟩ := folds_of_read hA hr
    rw [compactCondition_op hfl.eq hfr.eq]
    by_contra hne
    refine h ⟨hl, hr, fun a b hlt hrt hot => ?_⟩
    obtain ⟨x, rfl, -, hx⟩ := hfl.const a hlt
    obtain ⟨y, rfl, -, hy⟩ := hfr.const b hrt
    obtain ⟨t, ht⟩ := Option.ne_none_iff_exists'.mp hot
    by_contra hnot
    have hthrows : o.written A a x b y = none := by
      refine written_none ht fun hreads => hnot ⟨fun text he => ?_, fun text he => ?_⟩
      · subst he
        obtain rfl : text = x := (Cond.value.inj (Option.some.inj hfl.eq)).2
        exact hreads.1
      · subst he
        obtain rfl : text = y := (Cond.value.inj (Option.some.inj hfr.eq)).2
        exact hreads.2
    refine hne ?_
    rw [folded, fold_written ht, hthrows]
    rfl

/-! ### Where the interpreters agree -/

/-- The two interpreters agree on an operator between two constants. -/
def Agrees (A : Arith) (o : Operator) (a : ValueType) (x : Text) (b : ValueType) (y : Text) : Prop :=
  ∀ v, execCondition A (.op o (.value a x) (.value b y)) = some v → (fold A o a x b y).bind (execCondition A) = some v

theorem execCondition_value {type : ValueType} (ht : type ≠ .boolean) (text : Text) : execCondition A (.value type text) = some text := by
  cases type with
  | boolean => exact absurd rfl ht
  | _ => rfl

theorem execCondition_boolText (b : Bool) : execCondition A (.value .boolean (boolText b)) = some (boolText b) := by
  cases b <;> rfl

theorem boolText_ne_null (b : Bool) : boolText b ≠ NULL_VALUE := by
  cases b <;> decide

theorem boolText_inj {b b' : Bool} : boolText b = boolText b' ↔ b = b' := by
  cases b <;> cases b' <;> decide

theorem ne_boolean_of_number (h : a.isNumber = true) : a ≠ .boolean := by
  rintro rfl
  cases h

theorem execCmp_eq (c : Cmp) (x y : Text) : execCmp A c x y = boolText (c.byNumbers A x y) := by
  rw [execCmp, Cmp.byNumbers]
  cases A.stofAll x with
  | none => rfl
  | some p => cases A.stofAll y <;> rfl

theorem exec_float {f : A.F → A.F → A.F} {v : Text} (h : o.float A = some f) (ha : a ≠ .boolean) (hb : b ≠ .boolean)
    (hx : x ≠ NULL_VALUE) (hy : y ≠ NULL_VALUE) : execCondition A (.op o (.value a x) (.value b y)) = some v ↔
      ∃ p q, A.stofAll x = some p ∧ A.stofAll y = some q ∧ (o = .div → A.isZero q = false) ∧ v = A.put (f p q) := by
  have harith : ∀ g : A.F → A.F → Option A.F, execArith A g x y = some v ↔
      ∃ p q, A.stofAll x = some p ∧ A.stofAll y = some q ∧ ∃ z, g p q = some z ∧ v = A.put z := by
    intro g
    rw [execArith, Option.bind_eq_bind, Option.bind_eq_some_iff]
    refine exists_congr fun p => ?_
    rw [exists_and_left]
    refine and_congr_right fun _ => ?_
    rw [Option.bind_eq_some_iff]
    refine exists_congr fun q => and_congr_right fun _ => ?_
    rw [Option.bind_eq_some_iff]
    exact exists_congr fun z => and_congr_right fun _ => by rw [Option.some.injEq, eq_comm]
  cases o with
  | add =>
    obtain rfl := Option.some.inj h
    rw [execCondition, execCondition_value ha, execCondition_value hb]
    simp only [Option.bind_eq_bind, Option.bind_some, if_neg hx, if_neg hy, harith, Option.some.injEq, exists_eq_left',
      reduceCtorEq, false_imp_iff, true_and]
  | sub =>
    obtain rfl := Option.some.inj h
    rw [execCondition, execCondition_value ha, execCondition_value hb]
    simp only [Option.bind_eq_bind, Option.bind_some, if_neg hx, if_neg hy, harith, Option.some.injEq, exists_eq_left',
      reduceCtorEq, false_imp_iff, true_and]
  | mul =>
    obtain rfl := Option.some.inj h
    rw [execCondition, execCondition_value ha, execCondition_value hb]
    simp only [Option.bind_eq_bind, Option.bind_some, if_neg hx, if_neg hy, harith, Option.some.injEq, exists_eq_left',
      reduceCtorEq, false_imp_iff, true_and]
  | div =>
    obtain rfl := Option.some.inj h
    rw [execCondition, execCondition_value ha, execCondition_value hb]
    simp only [Option.bind_eq_bind, Option.bind_some, if_neg hx, if_neg hy, harith, Option.ite_none_left_eq_some, Option.some.injEq,
      forall_const, Bool.not_eq_true, and_assoc, exists_and_left, exists_eq_left']
  | cmp c => cases h
  | and => cases h
  | or => cases h

theorem exec_cmp (c : Cmp) (ha : a ≠ .boolean) (hb : b ≠ .boolean) : execCondition A (.op (.cmp c) (.value a x) (.value b y)) =
    some (if x = NULL_VALUE ∨ y = NULL_VALUE then NULL_VALUE else boolText (c.byNumbers A x y)) := by
  rw [execCondition, execCondition_value ha, execCondition_value hb]
  simp only [Option.bind_eq_bind, Option.bind_some, execCmp_eq]
  split
  · rename_i hx
    rw [if_pos (.inl hx)]
  · rename_i hx
    simp only [hx, false_or]
    split <;> rfl

/-- A text that is read as a number is not null. -/
theorem ne_null_of_reads (ha : a.isNumber = true) (h : Reads A o b a x) : x ≠ NULL_VALUE := by
  rintro rfl
  have hstof : ¬∃ p, A.stof NULL_VALUE = some p := fun ⟨p, hp⟩ => by
    rw [NULL_VALUE, A.stof_nil] at hp
    cases hp
  cases a with
  | int =>
    rw [Reads] at h
    split at h
    · obtain ⟨m, hm⟩ := h
      cases hm
    · exact hstof h
  | float => exact hstof h
  | varchar => cases ha
  | boolean => cases ha

/-- The operators of numbers. -/
theorem number_of_float {f : A.F → A.F → A.F} (hf : o.float A = some f) (ht : o.constType a b = some t) :
    a.isNumber = true ∧ b.isNumber = true ∧ t ≠ .boolean := by
  rcases constType_cases (A := A) ht with ⟨g, hg, rfl, rfl, rfl⟩ | ⟨f, hf, ha, hb, hn, rfl⟩ | ⟨c, rfl, hab, rfl⟩ | ⟨rfl | rfl, rfl, rfl, rfl⟩
  · exact ⟨rfl, rfl, by decide⟩
  · exact ⟨ha, hb, by decide⟩
  · cases hf
  · cases hf
  · cases hf

theorem agrees_float {f : A.F → A.F → A.F} {z : Text} (hf : o.float A = some f) (ht : o.constType a b = some t)
    (hx : Reads A o b a x) (hy : Reads A o a b y) (hz : o.written A a x b y = some z) : Agrees A o a x b y ↔ SameResult A o a x b y := by
  obtain ⟨ha, hb, htype⟩ := number_of_float hf ht
  have hexec : ∀ v, execCondition A (.op o (.value a x) (.value b y)) = some v ↔ _ := fun v =>
    exec_float hf (ne_boolean_of_number ha) (ne_boolean_of_number hb) (ne_null_of_reads ha hx) (ne_null_of_reads hb hy)
  have hsame : SameResult A o a x b y ↔ ∀ p q, A.stofAll x = some p → A.stofAll y = some q → (o = .div → A.isZero q = false) →
      z = A.put (f p q) := by
    cases o with
    | cmp c => cases hf
    | and => cases hf
    | or => cases hf
    | _ =>
      obtain rfl := Option.some.inj hf
      simp only [SameResult, hz, Option.some.injEq]
      refine ⟨fun h p q => h ha hb _ p q rfl, fun h _ _ f p q hf => ?_⟩
      obtain rfl := Option.some.inj hf
      exact h p q
  rw [hsame, Agrees, fold_written ht, hz, Option.map_some, Option.bind_some, execCondition_value htype]
  simp only [hexec, Option.some.injEq]
  constructor
  · exact fun h p q hp hq hzero => h _ ⟨p, q, hp, hq, hzero, rfl⟩
  · rintro h v ⟨p, q, hp, hq, hzero, rfl⟩
    exact h p q hp hq hzero

/-- A comparison of two constants that has been computed. -/
theorem agrees_cmp_iff {c : Cmp} {w : Bool} (ha : a ≠ .boolean) (hb : b ≠ .boolean) (ht : (Operator.cmp c).constType a b = some .boolean)
    (hw : Operator.written A (.cmp c) a x b y = some (boolText w)) :
    Agrees A (.cmp c) a x b y ↔ x ≠ NULL_VALUE ∧ y ≠ NULL_VALUE ∧ c.byNumbers A x y = w := by
  rw [Agrees, fold_written ht, hw, Option.map_some, Option.bind_some, execCondition_boolText, exec_cmp c ha hb]
  simp only [Option.some.injEq, forall_eq']
  by_cases hnull : x = NULL_VALUE ∨ y = NULL_VALUE
  · rw [if_pos hnull]
    exact iff_of_false (boolText_ne_null w) fun h => hnull.elim h.1 h.2.1
  · rw [if_neg hnull, boolText_inj]
    rw [not_or] at hnull
    exact ⟨fun h => ⟨hnull.1, hnull.2, h.symm⟩, fun h => h.2.2.symm⟩

theorem agrees_cmp {c : Cmp} (ht : (Operator.cmp c).constType a b = some t) (hx : Reads A (.cmp c) b a x) (hy : Reads A (.cmp c) a b y) :
    Agrees A (.cmp c) a x b y ↔ SameResult A (.cmp c) a x b y := by
  obtain ⟨hab, ht'⟩ := Option.ite_none_right_eq_some.mp ht
  obtain rfl := Option.some.inj ht'
  rcases hab with ⟨ha, hb⟩ | ⟨rfl, rfl⟩
  · have hxn := ne_null_of_reads ha hx
    have hyn := ne_null_of_reads hb hy
    by_cases hi : a = .int ∧ b = .int
    · obtain ⟨rfl, rfl⟩ := hi
      obtain ⟨m, hm⟩ := (reads_int Operator.noConfusion).mp hx
      obtain ⟨n, hn⟩ := (reads_int Operator.noConfusion).mp hy
      have hw : Operator.written A (.cmp c) .int x .int y = some (boolText (c.int m n)) := by
        rw [written_cmp_int, hm, hn]
        rfl
      rw [agrees_cmp_iff (by decide) (by decide) ht hw, SameResult, if_pos ⟨rfl, rfl⟩, hm, hn]
      refine ⟨fun h m' n' hm' hn' => ?_, fun h => ⟨hxn, hyn, h m n rfl rfl⟩⟩
      obtain rfl := Option.some.inj hm'
      obtain rfl := Option.some.inj hn'
      exact h.2.2
    · obtain ⟨p, hp⟩ := (reads_float ha fun h => hi ⟨h.1, h.2.1⟩).mp hx
      obtain ⟨q, hq⟩ := (reads_float hb fun h => hi ⟨h.2.1, h.1⟩).mp hy
      have hw : Operator.written A (.cmp c) a x b y = some (boolText (A.cmp c p q)) := by
        rw [written_cmp_float c ha hb hi, hp, hq]
        rfl
      rw [agrees_cmp_iff (ne_boolean_of_number ha) (ne_boolean_of_number hb) ht hw, SameResult, if_neg hi, if_pos ⟨ha, hb⟩, hp, hq]
      refine ⟨fun h p' q' hp' hq' => ?_, fun h => ⟨hxn, hyn, h p q rfl rfl⟩⟩
      obtain rfl := Option.some.inj hp'
      obtain rfl := Option.some.inj hq'
      exact h.2.2
  · exact agrees_cmp_iff (by decide) (by decide) ht (written_cmp_varchar c)

/-- Truth values that have been computed. -/
theorem agrees_truth (p q : Bool) :
    Agrees A .and .boolean (boolText p) .boolean (boolText q) ∧ Agrees A .or .boolean (boolText p) .boolean (boolText q) := by
  cases p <;> cases q <;> exact ⟨fun _ h => h, fun _ h => h⟩

theorem sameResult_open (h : o.constType a b = none) : SameResult A o a x b y := by
  cases o <;> cases a <;> cases b <;> first
    | trivial
    | cases h; done
    | exact fun _ hb => (Bool.false_ne_true hb).elim
    | exact fun ha => (Bool.false_ne_true ha).elim

/-- A constant of an expression without truth values for literals. -/
theorem boolText_of_folds (hc : c.Literals) (h : c = .value .boolean x ∨ Computed A .boolean x) : ∃ p, x = boolText p := by
  rcases h with rfl | h
  · exact absurd rfl hc
  · exact h

/-- The interpreters agree exactly if the operator comes to the same. -/
theorem agrees_iff (hA : ReadsBack A) (ht : o.constType a b = some t) (hx : Reads A o b a x) (hy : Reads A o a b y)
    (hbx : a = .boolean → ∃ p, x = boolText p) (hby : b = .boolean → ∃ q, y = boolText q) : Agrees A o a x b y ↔ SameResult A o a x b y := by
  obtain ⟨z, hz, -⟩ := written_computed hA ht hx hy
  cases o with
  | add => exact agrees_float rfl ht hx hy hz
  | sub => exact agrees_float rfl ht hx hy hz
  | mul => exact agrees_float rfl ht hx hy hz
  | div => exact agrees_float rfl ht hx hy hz
  | cmp c => exact agrees_cmp ht hx hy
  | and =>
    obtain ⟨⟨ha, hb⟩, -⟩ := Option.ite_none_right_eq_some.mp ht
    obtain ⟨p, rfl⟩ := hbx ha
    obtain ⟨q, rfl⟩ := hby hb
    subst ha hb
    exact iff_of_true (agrees_truth p q).1 trivial
  | or =>
    obtain ⟨⟨ha, hb⟩, -⟩ := Option.ite_none_right_eq_some.mp ht
    obtain ⟨p, rfl⟩ := hbx ha
    obtain ⟨q, rfl⟩ := hby hb
    subst ha hb
    exact iff_of_true (agrees_truth p q).2 trivial

/-! ### Expressions -/

/-- The value of a folded expression. -/
theorem Preserves.value {c' : Cond} {v : Text} (h : Preserves A c) (hf : compactCondition A c = some c') (hv : execCondition A c = some v) :
    execCondition A c' = some v := by
  have := h v hv
  rwa [hf, Option.bind_some] at this

theorem foldsWell_value : FoldsWell A (.value t x) := by
  refine fun _ => ⟨trivial, ?_⟩
  rintro _ _ _ ⟨⟩

theorem foldsWell_column {tbl : Name} {colName value : Text} {type : ColType} {negate : Bool} :
    FoldsWell A (.column tbl colName type negate value) := by
  refine fun _ => ⟨trivial, ?_⟩
  rintro _ _ _ ⟨⟩

theorem foldsWell_op (h : LiteralsRead A (.op o l r)) (hs : ∀ a b x y, l.constType = some a → r.constType = some b →
    l.constText A = some x → r.constText A = some y → SameResult A o a x b y) : FoldsWell A (.op o l r) := by
  refine fun _ => ⟨h, ?_⟩
  rintro _ _ _ ⟨⟩
  exact hs

/-- One operator. -/
theorem preserves_op (hA : ReadsBack A) (hc : (Cond.op o l r).Literals) (hl : Preserves A l) (hr : Preserves A r) :
    Preserves A (.op o l r) ↔ FoldsWell A (.op o l r) := by
  have hval : ∀ {l' r' v}, compactCondition A l = some l' → compactCondition A r = some r' →
      execCondition A (.op o l r) = some v → execCondition A (.op o l' r') = some v := fun hfl hfr =>
    execCondition_congr (fun _ => hl.value hfl) fun _ => hr.value hfr
  -- the operator is between two constants that are read
  have hagrees : LiteralsRead A (.op o l r) → ∀ {a b t x y}, Folds A l (.value a x) → Folds A r (.value b y) → l.constType = some a →
      r.constType = some b → o.constType a b = some t → (Agrees A o a x b y ↔ SameResult A o a x b y) := by
    intro hread a b t x y hfl hfr hlt hrt ht
    obtain ⟨hxr, hyr⟩ := hread.2.2 a b hlt hrt (by rw [ht]; exact Option.some_ne_none t)
    obtain ⟨x', hx', -, hx⟩ := hfl.const a hlt
    obtain ⟨y', hy', -, hy⟩ := hfr.const b hrt
    obtain rfl := (Cond.value.inj hx').2
    obtain rfl := (Cond.value.inj hy').2
    refine agrees_iff hA ht (reads_of_folds hx hxr) (reads_of_folds hy hyr) (fun ha => ?_) fun hb => ?_
    · subst ha
      exact boolText_of_folds hc.1 hx
    · subst hb
      exact boolText_of_folds hc.2 hy
  constructor
  · intro h hsome
    obtain ⟨v, hv⟩ := Option.isSome_iff_exists.mp hsome
    have hread : LiteralsRead A (.op o l r) := by
      by_contra hnot
      have := h v hv
      rw [compactCondition_throws hA hnot] at this
      cases this
    refine ⟨hread, ?_⟩
    rintro _ _ _ ⟨⟩ a b x y hlt hrt hx hy
    obtain ⟨l', hfl⟩ := folds_of_read hA hread.1
    obtain ⟨r', hfr⟩ := folds_of_read hA hread.2.1
    obtain ⟨x', rfl, hx', -⟩ := hfl.const a hlt
    obtain ⟨y', rfl, hy', -⟩ := hfr.const b hrt
    obtain rfl : x' = x := Option.some.inj (hx'.symm.trans hx)
    obtain rfl : y' = y := Option.some.inj (hy'.symm.trans hy)
    cases ht : o.constType a b with
    | none => exact sameResult_open ht
    | some t =>
      refine (hagrees hread hfl hfr hlt hrt ht).mp fun w hw => ?_
      obtain rfl : v = w := Option.some.inj ((hval hfl.eq hfr.eq hv).symm.trans hw)
      have := h v hv
      rwa [compactCondition_op hfl.eq hfr.eq] at this
  · intro h v hv
    obtain ⟨hread, hsame⟩ := h (Option.isSome_of_eq_some hv)
    obtain ⟨l', hfl⟩ := folds_of_read hA hread.1
    obtain ⟨r', hfr⟩ := folds_of_read hA hread.2.1
    have hv' := hval hfl.eq hfr.eq hv
    rw [compactCondition_op hfl.eq hfr.eq]
    cases hlt : l.constType with
    | none => rwa [folded_open (.inl (hfl.rest hlt))]
    | some a =>
      cases hrt : r.constType with
      | none => rwa [folded_open (.inr (hfr.rest hrt))]
      | some b =>
        obtain ⟨x, rfl, hx, -⟩ := hfl.const a hlt
        obtain ⟨y, rfl, hy, -⟩ := hfr.const b hrt
        cases ht : o.constType a b with
        | none =>
          rw [folded, fold_open ht]
          exact hv'
        | some t => exact (hagrees hread hfl hfr hlt hrt ht).mpr (hsame o l r rfl a b x y hlt hrt hx hy) v hv'

/-- Folding preserves the value of an expression and of all expressions in it exactly if they fold well. -/
theorem preserves_iff (hA : ReadsBack A) (c : Cond) (hc : c.Literals) : (∀ s ∈ c.subs, Preserves A s) ↔ ∀ s ∈ c.subs, FoldsWell A s := by
  induction c with
  | value type text =>
    simp only [Cond.subs, List.forall_mem_singleton]
    exact iff_of_true (fun v hv => hv) foldsWell_value
  | column tbl colName type negate text =>
    simp only [Cond.subs, List.forall_mem_singleton]
    exact iff_of_true (fun v hv => hv) foldsWell_column
  | op o left right ihl ihr =>
    simp only [Cond.subs, List.forall_mem_cons, List.forall_mem_append]
    rw [← ihl hc.1, ← ihr hc.2]
    refine and_congr_left fun h => preserves_op hA hc ?_ ?_
    · exact h.1 _ left.self_mem_subs
    · exact h.2 _ right.self_mem_subs

/-- Whole numbers that are written as an `int32_t`. -/
def wrappedNumbers : Arith := { wholeNumbers with toString := fun z => intToText (wrap z) }

theorem readsBack_wrapped : ReadsBack wrappedNumbers where
  float p := by
    obtain ⟨hle, hlt⟩ := wrap_range p
    refine ⟨wrap p, ?_⟩
    change stoi (intToText (wrap p)) = some (wrap p)
    rw [stoi_intToText, int32_eq_some.mpr ⟨⟨hle, hlt⟩, rfl⟩]
  int z hle hlt := by
    refine ⟨z, ?_⟩
    change stoi (intToText z) = some z
    rw [stoi_intToText, int32_eq_some.mpr ⟨⟨hle, hlt⟩, rfl⟩]

/-- `id < 2 * 3 AND 'abc' < 'abd'`, of a row with this id -/
def smallId (id : Text) : Cond :=
  .op .and (.op (.cmp .lt) (.column ("d".toList, "t".toList) "id".toList .int false id) (.op .mul (.value .int ['2']) (.value .int ['3'])))
    (.op (.cmp .lt) (.value .varchar "abc".toList) (.value .varchar "abd".toList))

/-- The constants of this condition are folded, and it has the same value. -/
theorem preserves_smallId : (smallId ['5']).subs.Forall (Preserves wrappedNumbers) := by
  have hreads : ∀ text type, (stoi text).isSome → Reads wrappedNumbers .mul type .int text := by
    intro text type h
    rw [Reads]
    split <;> exact Option.isSome_iff_exists.mp h
  have hsix : LiteralsRead wrappedNumbers (.op .mul (.value .int ['2']) (.value .int ['3'])) := by
    refine ⟨trivial, trivial, ?_⟩
    rintro _ _ ⟨⟩ ⟨⟩ -
    constructor
    · rintro _ ⟨⟩
      exact hreads _ _ (by decide)
    · rintro _ ⟨⟩
      exact hreads _ _ (by decide)
  have habc : LiteralsRead wrappedNumbers (.op (.cmp .lt) (.value .varchar "abc".toList) (.value .varchar "abd".toList)) := by
    refine ⟨trivial, trivial, ?_⟩
    rintro _ _ ⟨⟩ ⟨⟩ -
    exact ⟨fun _ _ => trivial, fun _ _ => trivial⟩
  have hid : LiteralsRead wrappedNumbers (.op (.cmp .lt) (.column ("d".toList, "t".toList) "id".toList .int false ['5'])
      (.op .mul (.value .int ['2']) (.value .int ['3']))) := by
    refine ⟨trivial, hsix, ?_⟩
    rintro _ _ ⟨⟩
  have hliterals : (smallId ['5']).Literals := ⟨⟨trivial, ValueType.noConfusion, ValueType.noConfusion⟩, ValueType.noConfusion, ValueType.noConfusion⟩
  refine List.forall_iff_forall_mem.mpr ((preserves_iff readsBack_wrapped (smallId ['5']) hliterals).mpr ?_)
  simp only [smallId, Cond.subs, List.forall_mem_cons, List.forall_mem_append, List.not_mem_nil, false_imp_iff, implies_true, and_true]
  refine ⟨foldsWell_op ⟨hid, habc, ?_⟩ ?_, ⟨foldsWell_op hid ?_, foldsWell_column, foldsWell_op hsix ?_, foldsWell_value, foldsWell_value⟩,
    foldsWell_op habc ?_, foldsWell_value, foldsWell_value⟩
  · rintro _ _ ⟨⟩
  · rintro _ _ _ _ ⟨⟩
  · rintro _ _ _ _ ⟨⟩
  · rintro _ _ _ _ ⟨⟩ ⟨⟩ ⟨⟩ ⟨⟩ - - _ _ _ ⟨⟩ ⟨⟩ ⟨⟩ -
    decide
  · rintro _ _ _ _ ⟨⟩ ⟨⟩ ⟨⟩ ⟨⟩
    exact ⟨by decide, by decide, by decide⟩

/-- `'1' = '01'` is true, and false when it has been folded. -/
theorem folded_comparison_differs : ¬∀ c : Cond, c.Literals → Preserves wholeNumbers c := by
  intro h
  have := h (.op (.cmp .eq) (.value .varchar ['1']) (.value .varchar ['0', '1'])) ⟨ValueType.noConfusion, ValueType.noConfusion⟩
    (boolText true) (by decide)
  revert this
  decide

/-- A part that is folded to something else need not change the whole. -/
example : Preserves wholeNumbers (.op .or (.op (.cmp .eq) (.value .varchar ['1']) (.value .varchar ['0', '1']))
    (.op (.cmp .eq) (.value .varchar ['a']) (.value .varchar ['a']))) := fun _ h => h

end RedB.Dml
