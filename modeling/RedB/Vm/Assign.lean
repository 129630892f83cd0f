import RedB.Ddl.Schema
import RedB.Vm.Precedence

/-!
# Assignments

`parser::assignment` reads `NAME = expr` as one expression and writes the call of `MKASSIGN` over its
first instruction. That is the instruction of the `=` behind the name, unless `expr` has `=`, `!=`, `OR`
or `AND` outside of parentheses: then it is the instruction of the last operator of the lowest level, and
the machine has no column on its left (`assignmentList_makes_iff`).
-/

namespace RedB.Tran

open Runs

/-! ### The translator -/

/-- `parser::assignment` -/
def assignment (fuel : ℕ) : P Unit := do
  let mrk ← codeSize
  let code ← logicExpr fuel []
  emitAll code
  patch mrk (.call .mkassign)

/-- `parser::assignment_list` -/
def assignmentList (fuel : ℕ) : ℕ → P Unit
  | 0 => throw .fuel
  | n + 1 => do
    assignment fuel
    if (← getLookaheadType 0) = .comma then do
      consume
      assignmentList fuel n

/-- An assignment as written. -/
structure Assignment where
  name : Token
  eq : Token
  expr : Syn
deriving DecidableEq

/-- The tokens, in their order. -/
def Assignment.tokens (a : Assignment) : List Token := a.name :: a.eq :: a.expr.tokens

/-- Parts with commas between them. -/
inductive Listed : List (List Token) → List Token → Prop where
  | one (part : List Token) : Listed [part] part
  | cons {part ts : List Token} {comma : Token} {parts : List (List Token)} : comma.type = .comma → Listed parts ts →
      Listed (part :: parts) (part ++ comma :: ts)

/-- `NAME = ` before an expression, as the translator reads it: what it takes for the right side of this
`=` is the first operand of a comparison. -/
def Syn.assign (name eq : Token) : Syn → Syn
  | bin op tok l r => if 4 ≤ opLevel op then bin op tok (l.assign name eq) r else bin .cmpeq eq (column name) (bin op tok l r)
  | e => bin .cmpeq eq (column name) e

/-! ### What is read -/

/-- The operator of an expression of a low level is one of a low level. -/
theorem Syn.assign_of_derives {name eq : Token} {e : Syn} (h : e.Derives codeOps 3) :
    e.assign name eq = .bin .cmpeq eq (.column name) e := by
  cases e with
  | bin op tok l r =>
    obtain ⟨m, hm, hop⟩ := h.level
    have hlevel := codeOps_level hop
    rw [Syn.assign, if_neg (by omega)]
  | _ => rfl

theorem Syn.tokens_ne_nil (e : Syn) : e.tokens ≠ [] := by
  cases e <;> simp [Syn.tokens]

/-- An expression of one name is a column. -/
theorem Syn.eq_column {n : ℕ} {e : Syn} {name : Token} (h : e.Derives codeOps n) (ht : e.tokens = [name]) (hname : name.type = .name) :
    e = .column name := by
  induction h with
  | literal hty =>
    obtain rfl := (List.cons.inj ht).1
    rw [hname] at hty
    exact absurd hty (by decide)
  | null hty | star hty =>
    obtain rfl := (List.cons.inj ht).1
    rw [hname] at hty
    cases hty
  | column _ =>
    obtain rfl := (List.cons.inj ht).1
    rfl
  | tblColumn | tblStar | dbStar => cases (List.cons.inj ht).2
  | @paren l r e _ _ _ _ => exact absurd (List.cons.inj ht).2 (by simp)
  | @sign tok e _ _ _ => exact absurd (List.cons.inj ht).2 e.tokens_ne_nil
  | up _ ih => exact ih ht
  | @bin n op tok l r _ _ _ _ _ =>
    have hlen := congrArg List.length ht
    have hl := List.length_pos_of_ne_nil l.tokens_ne_nil
    have hr := List.length_pos_of_ne_nil r.tokens_ne_nil
    simp only [Syn.tokens, List.length_append, List.length_cons, List.length_nil] at hlen
    omega

/-- The operands of an operator. -/
theorem Syn.Derives.sides {n : ℕ} {op : Op} {tok : Token} {l r : Syn} (h : (Syn.bin op tok l r).Derives codeOps n) :
    ∃ m < n, l.Derives codeOps (m + 1) ∧ r.Derives codeOps m := by
  generalize he : Syn.bin op tok l r = e at h
  induction h with
  | up _ ih =>
    obtain ⟨m, hm, hl, hr⟩ := ih he
    exact ⟨m, by omega, hl, hr⟩
  | @bin n _ _ _ _ _ hl hr =>
    cases he
    exact ⟨n, Nat.lt_succ_self n, hl, hr⟩
  | _ => cases he

/-- An expression that is no operand of `=` is an `=`, a `!=`, an `OR` or an `AND`. -/
theorem Syn.Derives.operand_or_bin {n : ℕ} {e : Syn} (h : e.Derives codeOps n) :
    e.Derives codeOps 3 ∨ ∃ op tok l r, e = .bin op tok l r ∧ 4 ≤ opLevel op := by
  induction h with
  | up _ ih => exact ih
  | @bin n op tok l r hop hl hr _ _ =>
    have hlevel := codeOps_level hop
    by_cases hn : n + 1 ≤ 3
    · exact Or.inl ((Syn.Derives.bin hop hl hr).mono hn)
    · exact Or.inr ⟨op, tok, l, r, rfl, by omega⟩
  | _ => exact Or.inl (Syn.Derives.mono (n := 0) (by constructor <;> assumption) (Nat.zero_le 3))

/-- `=` is an operator of the comparisons. -/
theorem codeOps_eq {n : ℕ} {op : Op} (h : codeOps (n + 1) .eq = some op) : n = 3 ∧ op = .cmpeq := by
  match n, h with
  | 3, h => exact ⟨rfl, (Option.some.inj h).symm⟩
  | 0, h | 1, h | 2, h | 4, h | 5, h | n + 6, h => cases h

/-- What starts with `NAME =` is an expression with that before it. -/
theorem Syn.exists_assign {n : ℕ} {e : Syn} {name eq : Token} {rest : List Token} (h : e.Derives codeOps n)
    (ht : e.tokens = name :: eq :: rest) (hname : name.type = .name) (heq : eq.type = .eq) :
    4 ≤ n ∧ ∃ E : Syn, E.Derives codeOps n ∧ E.tokens = rest ∧ e = E.assign name eq := by
  induction h generalizing rest with
  | literal | null | column | star => cases (List.cons.inj ht).2
  | tblColumn _ hdot _ | tblStar _ hdot _ | dbStar _ hdot _ _ _ =>
    obtain rfl := (List.cons.inj (List.cons.inj ht).2).1
    rw [heq] at hdot
    cases hdot
  | paren hl _ _ _ =>
    obtain rfl := (List.cons.inj ht).1
    rw [hname] at hl
    cases hl
  | sign hty _ _ =>
    obtain rfl := (List.cons.inj ht).1
    rw [hname] at hty
    rcases hty with hty | hty <;> cases hty
  | up _ ih =>
    obtain ⟨hn, E, hE, htok, he⟩ := ih ht
    exact ⟨by omega, E, hE.up, htok, he⟩
  | @bin n op tok l r hop hl hr ihl _ =>
    rw [Syn.tokens] at ht
    have hlevel := codeOps_level hop
    obtain ⟨t, ts, hts⟩ := List.exists_cons_of_ne_nil l.tokens_ne_nil
    rw [hts, List.cons_append] at ht
    obtain ⟨rfl, htail⟩ := List.cons.inj ht
    cases ts with
    | nil =>
      -- the `=` is the one behind the name
      obtain ⟨rfl, rfl⟩ := List.cons.inj (htail.symm.trans (List.nil_append _))
      obtain rfl := Syn.eq_column hl hts hname
      rw [heq] at hop
      obtain ⟨rfl, rfl⟩ := codeOps_eq hop
      exact ⟨Nat.le_refl 4, r, hr.up, rfl, (Syn.assign_of_derives hr).symm⟩
    | cons t' ts =>
      obtain ⟨rfl, rfl⟩ := List.cons.inj (htail.symm.trans (List.cons_append ..))
      obtain ⟨hn, E, hE, htok, rfl⟩ := ihl hts
      refine ⟨hn, .bin op tok E r, .bin hop hE hr, ?_, ?_⟩
      · rw [Syn.tokens, htok]
      · rw [Syn.assign, if_pos (by omega)]

/-- Every expression has an instruction. -/
theorem Syn.compile_eq_cons (d : List Token) (e : Syn) : ∃ line, e.compile d = line :: (e.compile d).tail := by
  induction e with
  | paren l e r ih => exact ih
  | sign tok e ih =>
    rw [Syn.compile]
    split
    · exact ⟨_, rfl⟩
    · exact ih
  | _ => exact ⟨_, rfl⟩

theorem Reads.withCode {s s' : PState} {ts : List Token} (h : Reads s ts s') (code : List Line) :
    Reads { s with code := code } ts { s' with code := code } :=
  ⟨h.stream, ⟨h.wf.ready, h.wf.mark, h.wf.lookahead, h.wf.tokenList, h.wf.first, h.wf.pooled⟩, h.data, rfl⟩

/-- The code of an assignment that has been read as this expression. -/
def Syn.assignCode (d : List Token) (e : Syn) : List Line := .call .mkassign :: (e.compile d).tail

/-- `assignment` reads an expression and overwrites its first instruction. -/
theorem assignment_parses {fuel : ℕ} {s s' : PState} {u : Unit} (h : assignment fuel s = .ok u s') (hs : s.Wf) :
    ∃ e s1 lines, Parsed 6 e s s1 ∧ s' = { s1 with code := s.code ++ lines } ∧ ∀ d, s1.data <+: d → lines = e.assignCode d := by
  obtain ⟨mrk, s0, hmrk, h⟩ := bind_ok.mp h
  obtain ⟨t, _, hget, hmrk⟩ := bind_ok.mp hmrk
  obtain ⟨rfl, rfl⟩ := get_ok.mp hget
  obtain ⟨rfl, rfl⟩ := pure_ok.mp hmrk
  obtain ⟨code, s1, hcode, h⟩ := bind_ok.mp h
  obtain ⟨e, hp, hc⟩ := logicExpr_parses fuel _ _ _ hs hcode
  obtain ⟨_, s2, hemit, hpatch⟩ := bind_ok.mp h
  obtain rfl := modify_ok.mp hemit
  obtain rfl := modify_ok.mp hpatch
  refine ⟨e, s1, code.set 0 (.call .mkassign), hp, ?_, fun d hd => ?_⟩
  · rw [hp.reads.code, List.set_append_right _ _ (Nat.le_refl _), Nat.sub_self]
  · obtain ⟨line, hline⟩ := e.compile_eq_cons d
    rw [hc d hd, hline, List.set_cons_zero, Syn.assignCode]

/-- What has been read of an assignment, with the data records that it needs. -/
structure Stored (data : List Token) (e : Syn) : Prop where
  derives : e.Derives codeOps 6
  leaves : ∀ tok ∈ e.leaves, HasRecord data tok
  shapes : ∀ tok ∈ e.tokens, tok.Shape

/-- The operands of what has been stored. -/
theorem Stored.sides {data : List Token} {op : Op} {tok : Token} {l r : Syn} (h : Stored data (.bin op tok l r)) : Stored data l ∧ Stored data r := by
  obtain ⟨m, hm, hl, hr⟩ := h.derives.sides
  constructor
  · exact ⟨hl.mono hm, fun t ht => h.leaves t (List.mem_append_left _ ht), fun t ht => h.shapes t (List.mem_append_left _ ht)⟩
  · exact ⟨hr.mono (by omega), fun t ht => h.leaves t (List.mem_append_right _ ht),
      fun t ht => h.shapes t (List.mem_append_right _ (List.mem_cons_of_mem _ ht))⟩

/-- `assignment_list` reads expressions with commas between them. -/
theorem assignmentList_parses {fuel n : ℕ} {s s' : PState} {u : Unit} (h : assignmentList fuel n s = .ok u s') (hs : s.Wf) :
    ∃ (es : List Syn) (ts : List Token) (s1 : PState), Listed (es.map Syn.tokens) ts ∧ Reads s ts s1 ∧ (∀ e ∈ es, Stored s1.data e) ∧
      s' = { s1 with code := s.code ++ es.flatMap (Syn.assignCode s1.data) } := by
  induction n generalizing s with
  | zero => exact (throw_ok.mp h).elim
  | succ n ih =>
    obtain ⟨_, s0, hassign, h⟩ := bind_ok.mp h
    obtain ⟨e, s1, lines, hp, rfl, hlines⟩ := assignment_parses hassign hs
    have hread := hp.reads.withCode (s.code ++ lines)
    obtain ⟨type, s2, htype, h⟩ := bind_ok.mp h
    obtain ⟨rfl, tok, hcur, -, rfl⟩ := getLookaheadType_zero htype hread.wf
    split at h
    · rename_i hcomma
      obtain ⟨_, s3, hconsume, h⟩ := bind_ok.mp h
      obtain ⟨hcr, -⟩ := consume_reads hconsume hread.wf hcur
      obtain ⟨es, ts, s4, hlisted, hreads, hstored, rfl⟩ := ih h hcr.wf
      have hall := (hread.trans (hcr.trans hreads)).withCode s.code
      have hdata : s1.data <+: s4.data := hcr.data.trans hreads.data
      refine ⟨e :: es, e.tokens ++ tok :: ts, { s4 with code := s.code }, .cons hcomma hlisted, hall, fun e' hm => ?_, ?_⟩
      · rcases List.mem_cons.mp hm with rfl | hm
        · exact ⟨hp.derives, fun t ht => (hp.leaves t ht).mono hdata, hp.shapes⟩
        · exact hstored e' hm
      · rw [hcr.code, hlines _ hdata, List.flatMap_cons, List.append_assoc]
    · obtain ⟨-, rfl⟩ := pure_ok.mp h
      refine ⟨[e], e.tokens, s1, .one _, hp.reads, fun e' hm => ?_, ?_⟩
      · rw [List.mem_singleton.mp hm]
        exact ⟨hp.derives, hp.leaves, hp.shapes⟩
      · rw [hlines _ List.prefix_rfl, List.flatMap_singleton]

end RedB.Tran

namespace RedB.Vm

open RedB.Tran Runs
open Ddl (hasFlag FLAG_AUTO_INC FLAG_PRIMARY)

/-! ### The machine -/

/-- What assignments are built in. -/
structure UpdateEnv extends Env where
  /-- The flags of a column in the schema of a table. -/
  colFlag : Table → Text → ℕ

/-- The stack, and `m_assignment_list`: the name of a column with the two sides of an item. -/
structure Machine where
  stack : List Item
  assignmentList : List (Text × Item × Item)
deriving DecidableEq

variable (env : UpdateEnv)

/-- `vm::make_assignment`. An item that is no column has no `m_parent`. -/
def makeAssignment : Machine → Option Machine
  | ⟨.column parent colName negate :: right :: stack, assignmentList⟩ =>
      if hasFlag (env.colFlag parent colName) FLAG_AUTO_INC || hasFlag (env.colFlag parent colName) FLAG_PRIMARY then none
      else some ⟨stack, (colName, .column parent colName negate, right) :: assignmentList⟩
  | _ => none

/-- An instruction of an assignment. -/
def Machine.step : Line → Machine → Option Machine
  | .call .mkassign, m => makeAssignment env m
  | line, m => (Vm.step env.toEnv line m.stack).map fun stack => { m with stack }

/-- Runs the instructions in this order. -/
def Machine.run : List Line → Machine → Option Machine
  | [], m => some m
  | line :: lines, m => (Machine.step env line m).bind (Machine.run lines)

/-- The item of an assignment: its left side is the column, its right side the item of the expression. -/
def UpdateEnv.makes (a : Assignment) : Option (Text × Item × Item) := do
  let col ← env.column [] [] a.name.text
  let it ← env.item a.expr
  some (a.name.text, col, it)

/-- A column may be assigned to. -/
def UpdateEnv.Assignable (colName : Text) : Prop :=
  ∃ parent, env.column [] [] colName = some (.column parent colName false) ∧
    hasFlag (env.colFlag parent colName) FLAG_AUTO_INC = false ∧ hasFlag (env.colFlag parent colName) FLAG_PRIMARY = false

/-- The instructions, the last one first, make one item for each assignment, in the order of the
assignments, and leave the stack as it was. -/
def Makes (code : List Line) (as : List Assignment) : Prop :=
  ∃ made, as.mapM env.makes = some made ∧
    ∀ stack earlier, Machine.run env code.reverse ⟨stack, earlier⟩ = some ⟨stack, made ++ earlier⟩

variable {env}

theorem Machine.run_append (lines lines' : List Line) (m : Machine) :
    Machine.run env (lines ++ lines') m = (Machine.run env lines m).bind (Machine.run env lines') := by
  induction lines generalizing m with
  | nil => rfl
  | cons line lines ih =>
    rw [List.cons_append, Machine.run, Machine.run, Option.bind_assoc]
    exact congrArg _ (funext ih)

/-- Other instructions see the stack alone. -/
theorem Machine.run_eq {lines : List Line} (h : .call .mkassign ∉ lines) (stack : List Item) (earlier : List (Text × Item × Item)) :
    Machine.run env lines ⟨stack, earlier⟩ = (Vm.run env.toEnv lines stack).map fun stack => ⟨stack, earlier⟩ := by
  induction lines generalizing stack with
  | nil => rfl
  | cons line lines ih =>
    rw [List.mem_cons, not_or] at h
    obtain ⟨hne, hnotin⟩ := h
    have hstep : Machine.step env line ⟨stack, earlier⟩ = (Vm.step env.toEnv line stack).map fun stack => ⟨stack, earlier⟩ := by
      rw [Machine.step]
      exact fun he => hne he.symm
    rw [Machine.run, Vm.run, hstep]
    cases Vm.step env.toEnv line stack with
    | none => rfl
    | some stack' => exact ih hnotin stack'

/-- There is no assignment in an expression. -/
theorem mkassign_not_mem {n : ℕ} {e : Syn} (h : e.Derives codeOps n) (d : List Token) : .call .mkassign ∉ e.compile d := by
  induction h with
  | sign _ _ ih =>
    rw [Syn.compile]
    split
    · rw [List.mem_cons, not_or]
      exact ⟨by simp, ih⟩
    · exact ih
  | paren _ _ _ ih => exact ih
  | up _ ih => exact ih
  | @bin n op tok l r hop _ _ ihl ihr =>
    have hne : op ≠ .mkassign := by
      rintro rfl
      cases codeOps_level hop
    rw [Syn.compile, List.mem_cons, List.mem_append]
    rintro (he | hl | hr)
    · exact hne (Line.call.inj he).symm
    · exact ihl hl
    · exact ihr hr
  | _ => simp [Syn.compile, refer, pushEmptyLine]

/-! ### One assignment -/

section One

variable {s : PState} {stack : List Item} {earlier : List (Text × Item × Item)}

/-- The instructions of an expression leave its item. -/
theorem run_stored (hs : s.Wf) (ha : env.Agrees s.data) {e : Syn} (he : Stored s.data e) :
    Machine.run env (e.compile s.data).reverse ⟨stack, earlier⟩ = (env.item e).map fun it => ⟨it :: stack, earlier⟩ := by
  have hnot : .call .mkassign ∉ (e.compile s.data).reverse := fun h => mkassign_not_mem he.derives s.data (List.mem_reverse.mp h)
  rw [Machine.run_eq hnot, run_compile hs.pooled hs.first ha he.derives he.leaves he.shapes, Option.map_map]
  rfl

/-- The item of an expression behind `NAME =` is that of an operator. -/
theorem item_assign {name eq : Token} {e : Syn} {it : Item} (h : env.item (e.assign name eq) = some it) :
    ∃ op l r, it = .binary op l r := by
  have hbin : ∀ (op : Op) (tok : Token) (l r : Syn), env.item (.bin op tok l r) = some it → ∃ op l r, it = .binary op l r := by
    intro op tok l r h
    obtain ⟨l, -, h⟩ := Option.bind_eq_some_iff.mp h
    obtain ⟨r, -, h⟩ := Option.bind_eq_some_iff.mp h
    exact ⟨op, l, r, (Option.some.inj h).symm⟩
  cases e with
  | bin op tok l r =>
    rw [Syn.assign] at h
    split at h
    · exact hbin _ _ _ _ h
    · exact hbin _ _ _ _ h
  | _ => exact hbin _ _ _ _ h

/-- The code of an assignment that is read as an operator of these sides. -/
theorem run_assignCode_bin {op : Op} {tok : Token} {l r : Syn} (hs : s.Wf) (ha : env.Agrees s.data)
    (hl : Stored s.data l) (hr : Stored s.data r) :
    Machine.run env (Syn.assignCode s.data (.bin op tok l r)).reverse ⟨stack, earlier⟩ =
      (env.item r).bind fun itr => (env.item l).bind fun itl => makeAssignment env ⟨itl :: itr :: stack, earlier⟩ := by
  have hcode : Syn.assignCode s.data (.bin op tok l r) = .call .mkassign :: (l.compile s.data ++ r.compile s.data) := rfl
  rw [hcode, List.reverse_cons, List.reverse_append, List.append_assoc, Machine.run_append, run_stored hs ha hr]
  cases env.item r with
  | none => rfl
  | some itr =>
    rw [Option.map_some, Option.bind_some, Option.bind_some, Machine.run_append, run_stored hs ha hl]
    cases env.item l with
    | none => rfl
    | some itl =>
      rw [Option.map_some, Option.bind_some, Option.bind_some, Machine.run]
      exact Option.bind_fun_some _

/-- An assignment makes its item. -/
structure UpdateEnv.Fine (env : UpdateEnv) (a : Assignment) : Prop where
  /-- There is no `=`, `!=`, `OR` or `AND` outside of parentheses. -/
  operand : a.expr.Derives codeOps 3
  column : env.Assignable a.name.text
  expr : (env.item a.expr).isSome = true

/-- An assignment that is read as `=` makes its item. -/
theorem run_assignment_of_fine (hs : s.Wf) (ha : env.Agrees s.data) {a : Assignment}
    (hst : Stored s.data (a.expr.assign a.name a.eq)) (h : env.Fine a) :
    ∃ x, env.makes a = some x ∧
      Machine.run env (Syn.assignCode s.data (a.expr.assign a.name a.eq)).reverse ⟨stack, earlier⟩ = some ⟨stack, x :: earlier⟩ := by
  obtain ⟨parent, hcol, hauto, hprimary⟩ := h.column
  obtain ⟨it, hit⟩ := Option.isSome_iff_exists.mp h.expr
  have hitem : env.item (.column a.name) = some (.column parent a.name.text false) := hcol
  rw [Syn.assign_of_derives h.operand] at hst ⊢
  refine ⟨(a.name.text, .column parent a.name.text false, it), ?_, ?_⟩
  · rw [UpdateEnv.makes, hcol, hit]
    rfl
  · rw [run_assignCode_bin hs ha hst.sides.1 hst.sides.2, hit, Option.bind_some, hitem, Option.bind_some, makeAssignment, hauto, hprimary]
    rfl

/-- Another one throws. -/
theorem run_assignment_of_not_fine (hs : s.Wf) (ha : env.Agrees s.data) {a : Assignment} (he : a.expr.Derives codeOps 6)
    (hst : Stored s.data (a.expr.assign a.name a.eq)) (h : ¬env.Fine a) :
    Machine.run env (Syn.assignCode s.data (a.expr.assign a.name a.eq)).reverse ⟨stack, earlier⟩ = none := by
  rcases he.operand_or_bin with h3 | ⟨op, tok, l, r, hbin, hop⟩
  · rw [Syn.assign_of_derives h3] at hst ⊢
    rw [run_assignCode_bin hs ha hst.sides.1 hst.sides.2]
    cases hit : env.item a.expr with
    | none => rfl
    | some it =>
      have hitem : env.item (.column a.name) = env.column [] [] a.name.text := rfl
      rw [Option.bind_some, hitem]
      cases hcol : env.column [] [] a.name.text with
      | none => rfl
      | some col =>
        obtain ⟨parent, rfl⟩ := column_named hcol
        rw [Option.bind_some, makeAssignment]
        refine if_pos ?_
        by_contra hflags
        rw [Bool.or_eq_true, not_or, Bool.not_eq_true, Bool.not_eq_true] at hflags
        exact h ⟨h3, ⟨parent, hcol, hflags⟩, by rw [hit]; rfl⟩
  · have hassign : a.expr.assign a.name a.eq = .bin op tok (l.assign a.name a.eq) r := by
      rw [hbin, Syn.assign, if_pos hop]
    rw [hassign] at hst ⊢
    rw [run_assignCode_bin hs ha hst.sides.1 hst.sides.2]
    cases env.item r with
    | none => rfl
    | some itr =>
      rw [Option.bind_some]
      cases hitl : env.item (l.assign a.name a.eq) with
      | none => rfl
      | some itl =>
        -- the left side is no column
        obtain ⟨op', x, y, rfl⟩ := item_assign hitl
        rfl

end One

/-! ### All assignments -/

/-- Parts of the form `NAME = expr` are assignments. -/
theorem exists_assignments {es : List Syn} (hd : ∀ e ∈ es, e.Derives codeOps 6)
    (hform : ∀ part ∈ es.map Syn.tokens, ∃ name eq rest, part = name :: eq :: rest ∧ name.type = .name ∧ eq.type = .eq) :
    ∃ as : List Assignment, es = (as.map fun a => a.expr.assign a.name a.eq) ∧ es.map Syn.tokens = as.map Assignment.tokens ∧
      ∀ a ∈ as, a.expr.Derives codeOps 6 := by
  induction es with
  | nil => exact ⟨[], rfl, rfl, fun a ha => by cases ha⟩
  | cons e es ih =>
    rw [List.map_cons, List.forall_mem_cons] at hform
    obtain ⟨as, rfl, htokens, has⟩ := ih (fun e' he' => hd e' (List.mem_cons_of_mem _ he')) hform.2
    obtain ⟨name, eq, rest, hpart, hname, heq⟩ := hform.1
    obtain ⟨-, E, hE, rfl, rfl⟩ := Syn.exists_assign (hd e List.mem_cons_self) hpart hname heq
    refine ⟨⟨name, eq, E⟩ :: as, rfl, ?_, List.forall_mem_cons.mpr ⟨hE, has⟩⟩
    rw [List.map_cons, htokens, hpart]
    rfl

section All

variable {s : PState}

/-- The code of assignments. -/
def assignmentsCode (data : List Token) (as : List Assignment) : List Line :=
  as.flatMap fun a => Syn.assignCode data (a.expr.assign a.name a.eq)

/-- The last assignment runs first, and its item ends up last. -/
theorem run_assignments_of_fine (hs : s.Wf) (ha : env.Agrees s.data) {as : List Assignment}
    (hst : ∀ a ∈ as, Stored s.data (a.expr.assign a.name a.eq)) (h : ∀ a ∈ as, env.Fine a) :
    Makes env (assignmentsCode s.data as) as := by
  induction as with
  | nil => exact ⟨[], rfl, fun _ _ => rfl⟩
  | cons a as ih =>
    obtain ⟨made, hmade, hrun⟩ := ih (fun b hb => hst b (List.mem_cons_of_mem _ hb)) fun b hb => h b (List.mem_cons_of_mem _ hb)
    have hone := fun stack earlier =>
      @run_assignment_of_fine env s stack earlier hs ha a (hst a List.mem_cons_self) (h a List.mem_cons_self)
    obtain ⟨x, hx, -⟩ := hone [] []
    refine ⟨x :: made, ?_, fun stack earlier => ?_⟩
    · rw [List.mapM_cons, hx, hmade]
      rfl
    · obtain ⟨x', hx', hrun'⟩ := hone stack (made ++ earlier)
      obtain rfl := Option.some.inj (hx'.symm.trans hx)
      rw [assignmentsCode, List.flatMap_cons, List.reverse_append, Machine.run_append]
      rw [show (List.flatMap _ as).reverse = (assignmentsCode s.data as).reverse from rfl, hrun, Option.bind_some, hrun']
      rfl

/-- One that is not read as `=` stops them all. -/
theorem run_assignments_of_not_fine (hs : s.Wf) (ha : env.Agrees s.data) {as : List Assignment}
    (he : ∀ a ∈ as, a.expr.Derives codeOps 6) (hst : ∀ a ∈ as, Stored s.data (a.expr.assign a.name a.eq)) (h : ¬∀ a ∈ as, env.Fine a)
    (m : Machine) : Machine.run env (assignmentsCode s.data as).reverse m = none := by
  induction as generalizing m with
  | nil => exact absurd (fun a ha => by cases ha) h
  | cons a as ih =>
    have hsplit : (assignmentsCode s.data (a :: as)).reverse =
        (assignmentsCode s.data as).reverse ++ (Syn.assignCode s.data (a.expr.assign a.name a.eq)).reverse := List.reverse_append
    rw [hsplit, Machine.run_append]
    by_cases hrest : ∀ b ∈ as, env.Fine b
    · have hnot : ¬env.Fine a := fun hfine => h (List.forall_mem_cons.mpr ⟨hfine, hrest⟩)
      cases Machine.run env (assignmentsCode s.data as).reverse m with
      | none => rfl
      | some m' => exact run_assignment_of_not_fine hs ha (he a List.mem_cons_self) (hst a List.mem_cons_self) hnot
    · rw [ih (fun b hb => he b (List.mem_cons_of_mem _ hb)) (fun b hb => hst b (List.mem_cons_of_mem _ hb)) hrest]
      rfl

end All

/-- `assignment_list` reads parts with commas between them. If all of them are of the form `NAME = expr`,
their code makes the items of the assignments if and only if no `expr` has an `=`, a `!=`, an `OR` or an
`AND` outside of parentheses and all of them have a column that may be assigned to and an item. -/
theorem assignmentList_makes_iff {fuel n : ℕ} {s s' : PState} {u : Unit} (hs : s.Wf) (h : assignmentList fuel n s = .ok u s') :
    ∃ (parts : List (List Token)) (ts : List Token) (s1 : PState) (code : List Line), Listed parts ts ∧ Reads s ts s1 ∧
      s' = { s1 with code := s.code ++ code } ∧
      ((∀ part ∈ parts, ∃ name eq rest, part = name :: eq :: rest ∧ name.type = .name ∧ eq.type = .eq) →
        ∃ as : List Assignment, parts = as.map Assignment.tokens ∧ (∀ a ∈ as, a.expr.Derives codeOps 6) ∧
          ∀ env : UpdateEnv, env.Agrees s1.data → (Makes env code as ↔ ∀ a ∈ as, env.Fine a)) := by
  obtain ⟨es, ts, s1, hlisted, hreads, hstored, rfl⟩ := assignmentList_parses h hs
  refine ⟨es.map Syn.tokens, ts, s1, es.flatMap (Syn.assignCode s1.data), hlisted, hreads, rfl, fun hform => ?_⟩
  obtain ⟨as, rfl, htokens, hderives⟩ := exists_assignments (fun e he => (hstored e he).derives) hform
  refine ⟨as, htokens, hderives, fun env ha => ?_⟩
  have hst : ∀ a ∈ as, Stored s1.data (a.expr.assign a.name a.eq) := fun a hm => hstored _ (List.mem_map_of_mem hm)
  have hcode : (as.map fun a => a.expr.assign a.name a.eq).flatMap (Syn.assignCode s1.data) = assignmentsCode s1.data as :=
    List.flatMap_map ..
  rw [hcode]
  constructor
  · rintro ⟨made, -, hrun⟩
    by_contra hnot
    have hnone := run_assignments_of_not_fine hreads.wf ha hderives hst hnot ⟨[], []⟩
    rw [hrun] at hnone
    cases hnone
  · exact run_assignments_of_fine hreads.wf ha hst

/-! ### `SET x = 1 AND 0` -/

/-- The instructions and the data records of assignments that are all of the text. -/
def parseAssignments (sql : Text) : Option (List Line × List Token) :=
  match (loadLookahead 1 >>= fun _ => assignmentList 20 20) (start sql) with
  | .ok _ s => some (s.code, s.data)
  | .error .. => none

/-- A machine with these data records and a table `t (x)` of an integer column. -/
def updateX (data : List Token) : UpdateEnv :=
  { Env.plain data with
    treeList := [⟨['d'], ['t'], [], [(['x'], TYPE_INT)]⟩]
    colFlag := fun _ _ => 0 }

theorem parseAssignments_eq_some {sql : Text} {code : List Line} {data : List Token} (h : parseAssignments sql = some (code, data)) :
    ∃ s s' : PState, s.Wf ∧ assignmentList 20 20 s = .ok () s' ∧ s'.code = code ∧ s'.data = data := by
  unfold parseAssignments at h
  split at h
  · rename_i u s' hx
    obtain ⟨_, s, hload, hx⟩ := bind_ok.mp hx
    obtain ⟨rfl, rfl⟩ := Prod.mk.inj (Option.some.inj h)
    exact ⟨s, s', start_wf hload (by decide), hx, rfl, rfl⟩
  · cases h

/-- Two assignments, of a sum and of a comparison in parentheses. -/
theorem assignmentList_makes_two : ∃ s s' : PState, parseAssignments "x = 1 + 2, x = (x = 3)".toList = some (s'.code, s'.data) ∧
    ∃ (parts : List (List Token)) (ts : List Token) (s1 : PState) (code : List Line), Listed parts ts ∧ Reads s ts s1 ∧
      s' = { s1 with code := s.code ++ code } ∧
      ((∀ part ∈ parts, ∃ name eq rest, part = name :: eq :: rest ∧ name.type = .name ∧ eq.type = .eq) →
        ∃ as : List Assignment, parts = as.map Assignment.tokens ∧ (∀ a ∈ as, a.expr.Derives codeOps 6) ∧
          ∀ env : UpdateEnv, env.Agrees s1.data → (Makes env code as ↔ ∀ a ∈ as, env.Fine a)) := by
  obtain ⟨⟨code, data⟩, hx⟩ :=
    Option.isSome_iff_exists.mp (show (parseAssignments "x = 1 + 2, x = (x = 3)".toList).isSome = true by decide +kernel)
  obtain ⟨s, s', hs, h, rfl, rfl⟩ := parseAssignments_eq_some hx
  exact ⟨s, s', hx, assignmentList_makes_iff hs h⟩

/-- `x = 1 AND 0` -/
def xOneAnd : Assignment where
  name := ⟨.name, ['x']⟩
  eq := ⟨.eq, ['=']⟩
  expr := .bin .and ⟨.and, "AND".toList⟩ (.literal ⟨.int, ['1']⟩) (.literal ⟨.int, ['0']⟩)

theorem xOneAnd_derives : xOneAnd.expr.Derives codeOps 6 := by
  have hlit : ∀ c, (Syn.literal ⟨.int, [c]⟩).Derives codeOps 0 := fun c => .literal (by simp)
  exact .bin rfl ((hlit '1').mono (by decide)) ((hlit '0').mono (by decide))

/-- The assignment of `1 AND 0` throws. -/
theorem assignment_and_not_made : ∃ code data, parseAssignments "x = 1 AND 0".toList = some (code, data) ∧
    xOneAnd.tokens.map Token.text = ["x".toList, "=".toList, "1".toList, "AND".toList, "0".toList] ∧
    xOneAnd.expr.Derives codeOps 6 ∧ (updateX data).Assignable ['x'] ∧ ((updateX data).makes xOneAnd).isSome = true ∧
    ¬Makes (updateX data) code [xOneAnd] := by
  refine ⟨_, _, (by decide +kernel : _ = some ([.call .mkassign, .call .cmpeq, .call .mkclmnexpr, pushEmptyLine, pushEmptyLine,
    .pusho (some 1) ⟨.name, ['x']⟩, .call .mkexpr, .pusho (some 2) ⟨.int, ['1']⟩, .call .mkexpr, .pusho (some 3) ⟨.int, ['0']⟩],
    [⟨.schemaVarchar, empty⟩, ⟨.name, ['x']⟩, ⟨.int, ['1']⟩, ⟨.int, ['0']⟩])), rfl, xOneAnd_derives, ?_, rfl, ?_⟩
  · exact ⟨_, rfl, rfl, rfl⟩
  · rintro ⟨made, -, hrun⟩
    cases (hrun [] []).symm.trans (show Machine.run _ _ _ = none from rfl)

end RedB.Vm
