import RedB.Theory.Frames
import RedB.Dml.Cond

/-!
# Result boxes

A row of a result is packed into a text, with a byte behind each value, while the columns get as wide as
their longest value. When the box is printed the texts are taken apart again at those bytes, and each value
is printed at one side of its column, on which side depends on the type of its expression.

The box shows the rows if and only if each expression has a type that is printed, no value has the byte
that is put behind values, and an absent value is not the result of arithmetic and stands in a column that
is wide enough for the word that is printed for it (`boxed_iff`).
-/

namespace RedB.Dml

open Frames

def VB : Char := '|'

def SPC : Char := ' '

def PS : Char := '+'

def MS : Char := '-'

def NL : Char := '\n'

/-- What stands behind each value of a packed row: `static_cast<char>(174)`. -/
def DELIM : Char := Char.ofNat 174

variable (A : Arith)

-- `std::istringstream >>` of a text in which there is something, and what a float is that is not set
variable (get : Text → A.F) (unset : A.F)

/-! ### Items of a select list -/

/-- The type of an item, for a column with the type of the column. -/
inductive ItemType where
  | value (type : ValueType)
  | column (type : ColType)
  | op (op : Operator)
deriving DecidableEq, Repr

def Cond.itemType : Cond → ItemType
  | .value type _ => ItemType.value type
  | .column _ _ type _ _ => ItemType.column type
  | .op o _ _ => ItemType.op o

/-- An item of the select list. `vm::make_expression_list` makes it as wide as its title. -/
structure SelectItem where
  type : ItemType
  outSize : ℕ
  outPrec : ℕ
  title : Text
  titled : title.length ≤ outSize

/-- Where `vm::output_boxed_line` prints a value in its column. -/
inductive Side where
  | left | right
  /-- Nowhere. -/
  | none
deriving DecidableEq

/-- The cases of `vm::output_boxed_line`. -/
def ItemType.side : ItemType → Side
  | .column .boolean | .op .and | .op .or => .left
  | .op (.cmp .ne) => .none
  | .op (.cmp _) => .left
  | .column .char | .column .date | .column .datetime | .column .enum | .column .timestamp | .column .varchar | .value .varchar => .left
  | .column .binary => .none
  | .column .float | .column .int => .right
  | .op .add | .op .div | .value .float | .value .int | .op .mul | .op .sub => .right
  | .value .boolean => .none

/-- The cases of `vm::output_expr_list`: values that are printed with the item's precision. -/
def ItemType.fixes : ItemType → Bool
  | .op .add | .op .div | .value .float | .op .mul | .op .sub => true
  | _ => false

/-! ### Packing -/

/-- What is packed for a value. -/
def SelectItem.packed (it : SelectItem) (res : Text) : Text :=
  if it.type.fixes then A.fixed it.outPrec (if res = NULL_VALUE then unset else get res) else res

/-- The item, wide enough for what is packed. -/
def SelectItem.widen (it : SelectItem) (text : Text) : SelectItem :=
  { it with outSize := max it.outSize text.length, titled := it.titled.trans (Nat.le_max_left ..) }

/-- `vm::output_expr_list`, for a box: the items and the packed row, nothing if it throws. -/
def boxedExprList : List SelectItem → List Cond → Option (List SelectItem × Text)
  | it :: its, e :: es => do
    let res ← execCondition A e
    let text := it.packed A get unset res
    let (its, row) ← boxedExprList its es
    some (it.widen text :: its, text ++ DELIM :: row)
  | its, _ => some (its, [])

/-- `vm::output_expr_list`, of one row after the other. -/
def outputRows : List SelectItem → List (List Cond) → Option (List SelectItem × List Text)
  | its, [] => some (its, [])
  | its, row :: rows => do
    let (its, text) ← boxedExprList A get unset its row
    let (its, texts) ← outputRows its rows
    some (its, text :: texts)

/-! ### Printing -/

/-- A value in its column. -/
def SelectItem.cell (it : SelectItem) (value : Text) : Text :=
  match it.type.side with
  | .left => value ++ List.replicate (it.outSize - value.length) SPC
  | .right => List.replicate (it.outSize - value.length) SPC ++ value
  | .none => []

/-- The loop of `vm::output_boxed_line`. -/
def boxedCells : List SelectItem → Text → Text
  | [], _ => []
  | it :: its, row =>
    let value := row.takeWhile (· ≠ DELIM)
    let value := if value = [] then "null".toList else value
    match row.dropWhile (· ≠ DELIM) with
    | [] => []
    | _ :: row => it.cell value ++ SPC :: VB :: SPC :: boxedCells its row

/-- `vm::output_boxed_line` -/
def boxedLine (its : List SelectItem) (row : Text) : Text := (VB :: SPC :: boxedCells its row).dropLast ++ [NL]

/-- The line above the titles, and around the rows. -/
def barbwire (its : List SelectItem) : Text :=
  PS :: (its.flatMap fun it => List.replicate (it.outSize + 2) MS ++ [PS]) ++ [NL]

def titleLine (its : List SelectItem) : Text :=
  VB :: frame VB SPC (its.map fun it => it.title ++ List.replicate (it.outSize - it.title.length) SPC) ++ [NL]

/-- `vm::output_boxed_result` -/
def boxedResult (its : List SelectItem) (rows : List Text) : List Text :=
  [barbwire its, titleLine its, barbwire its] ++ rows.map (boxedLine its) ++ [barbwire its]

/-! ### What a box shows -/

/-- The value of an expression as it is to be printed: with its precision, or a word if it is absent. -/
def SelectItem.shown (it : SelectItem) (e : Cond) : Text :=
  match execCondition A e with
  | none => []
  | some res => if res = NULL_VALUE then "null".toList else if it.type.fixes then A.fixed it.outPrec (get res) else res

/-- A line has the values of a row between its bars, in order. -/
def Shows (its : List SelectItem) (row : List Cond) (line : Text) : Prop :=
  ∃ cells, line = VB :: frame VB SPC cells ++ [NL] ∧
    List.Forall₂ (Pads SPC) cells ((its.zip row).map fun p => p.1.shown A get p.2)

/-- The box shows the rows, in lines of the same length. -/
def BoxShows (its : List SelectItem) (rows : List (List Cond)) (texts : List Text) : Prop :=
  (∀ p ∈ rows.zip texts, Shows A get its p.1 (boxedLine its p.2)) ∧
    ∀ line ∈ boxedResult its texts, line.length = (barbwire its).length

/-- The value of an expression is absent. -/
def Absent (e : Cond) : Prop := execCondition A e = some NULL_VALUE

/-- The title or a value of this column is as long as the word for an absent one. -/
def Wide (its : List SelectItem) (rows : List (List Cond)) (i : ℕ) : Prop :=
  ∃ it, its[i]? = some it ∧ (4 ≤ it.outSize ∨ ∃ row ∈ rows, ∃ e, row[i]? = some e ∧ ¬Absent A e ∧ 4 ≤ (it.shown A get e).length)

/-- The value in this column of a row is printed as it is. -/
def PrintsAt (its : List SelectItem) (rows : List (List Cond)) (row : List Cond) (i : ℕ) : Prop :=
  ∀ it e, its[i]? = some it → row[i]? = some e → it.type.side ≠ .none ∧
    (Absent A e → it.type.fixes = false ∧ Wide A get its rows i) ∧ DELIM ∉ it.shown A get e

/-- What is packed for an expression. -/
def SelectItem.text (it : SelectItem) (e : Cond) : Text := it.packed A get unset ((execCondition A e).getD [])

/-- A row, packed. -/
def packRow (l : List (SelectItem × Cond)) : Text := (l.map fun p => p.1.text A get unset p.2).flatMap (· ++ [DELIM])

/-- Numbers are printed as something that has no letter of the word for an absent value but one. -/
structure Digits : Prop where
  ne_nil : ∀ prec x, A.fixed prec x ≠ []
  not_mem : ∀ prec x, 'l' ∉ A.fixed prec x
  delim : ∀ prec x, DELIM ∉ A.fixed prec x

variable {A get unset} {its : List SelectItem} {it : SelectItem} {e : Cond} {row : List Cond} {rows : List (List Cond)} {l : List (SelectItem × Cond)}

/-! ### Values -/

theorem SelectItem.shown_absent (h : Absent A e) : it.shown A get e = "null".toList := by
  rw [SelectItem.shown, h]
  exact if_pos rfl

theorem SelectItem.text_absent (h : Absent A e) (hf : it.type.fixes = false) : it.text A get unset e = [] := by
  rw [SelectItem.text, h, SelectItem.packed, hf]
  rfl

theorem SelectItem.text_unset (h : Absent A e) (hf : it.type.fixes = true) : it.text A get unset e = A.fixed it.outPrec unset := by
  rw [SelectItem.text, h, SelectItem.packed, hf]
  rfl

theorem SelectItem.text_present (hsome : (execCondition A e).isSome) (h : ¬Absent A e) : it.text A get unset e = it.shown A get e := by
  obtain ⟨res, hres⟩ := Option.isSome_iff_exists.mp hsome
  have hne : res ≠ NULL_VALUE := fun hnull => h (hres.trans (congrArg some hnull))
  rw [SelectItem.text, SelectItem.shown, hres, Option.getD_some, SelectItem.packed]
  simp only [if_neg hne]

theorem SelectItem.shown_ne_nil (hd : Digits A) (hsome : (execCondition A e).isSome) : it.shown A get e ≠ [] := by
  obtain ⟨res, hres⟩ := Option.isSome_iff_exists.mp hsome
  rw [SelectItem.shown, hres]
  dsimp only
  split
  · exact nofun
  · split
    · exact hd.ne_nil _ _
    · assumption

/-- What is printed for an expression. -/
def SelectItem.printed (A : Arith) (get : Text → A.F) (unset : A.F) (it : SelectItem) (e : Cond) : Text :=
  if it.text A get unset e = [] then "null".toList else it.text A get unset e

/-- The value is printed, but for an absent one that is the result of arithmetic. -/
theorem SelectItem.printed_eq (hd : Digits A) (hsome : (execCondition A e).isSome) (h : Absent A e → it.type.fixes = false) :
    it.printed A get unset e = it.shown A get e := by
  by_cases habs : Absent A e
  · rw [SelectItem.printed, text_absent habs (h habs), if_pos rfl, shown_absent habs]
  · rw [SelectItem.printed, text_present hsome habs, if_neg (shown_ne_nil hd hsome)]

theorem SelectItem.printed_unset (hd : Digits A) (habs : Absent A e) (hf : it.type.fixes = true) :
    it.printed A get unset e = A.fixed it.outPrec unset := by
  rw [SelectItem.printed, text_unset habs hf, if_neg (hd.ne_nil _ _)]

/-! ### Cells -/

theorem SelectItem.cell_pads (hs : it.type.side ≠ .none) (value : Text) : Pads SPC (it.cell value) value := by
  rw [SelectItem.cell]
  split
  · exact ⟨0, it.outSize - value.length, by simp⟩
  · exact ⟨it.outSize - value.length, 0, by simp⟩
  · exact absurd ‹_› hs

theorem SelectItem.length_cell (hs : it.type.side ≠ .none) (value : Text) : (it.cell value).length = max it.outSize value.length := by
  rw [SelectItem.cell]
  split
  · rw [List.length_append, List.length_replicate]
    omega
  · rw [List.length_append, List.length_replicate]
    omega
  · exact absurd ‹_› hs

theorem SelectItem.countP_cell_le {p : Char → Bool} (hp : p SPC = false) (value : Text) : (it.cell value).countP p ≤ value.countP p := by
  by_cases hs : it.type.side = .none
  · rw [SelectItem.cell, hs]
    exact Nat.zero_le _
  · exact ((SelectItem.cell_pads hs value).countP hp).le

theorem length_barbwire : (barbwire its).length = (its.map SelectItem.outSize).sum + 3 * its.length + 2 := by
  have hflat : (its.flatMap fun it => List.replicate (it.outSize + 2) MS ++ [PS]).length = (its.map SelectItem.outSize).sum + 3 * its.length := by
    induction its with
    | nil => rfl
    | cons it its ih =>
      rw [List.flatMap_cons, List.length_append, ih, List.length_append, List.length_replicate, List.map_cons, List.sum_cons, List.length_singleton,
        List.length_cons]
      omega
  rw [barbwire, List.length_append, List.length_cons, hflat]
  rfl

/-! ### Lines -/

theorem boxedCells_cons {value rest : Text} (h : DELIM ∉ value) :
    boxedCells (it :: its) (value ++ DELIM :: rest) =
      it.cell (if value = [] then "null".toList else value) ++ SPC :: VB :: SPC :: boxedCells its rest := by
  have hp : ∀ c ∈ value, decide (c ≠ DELIM) = true := fun c hc => decide_eq_true (ne_of_mem_of_not_mem hc h)
  have htake : (value ++ DELIM :: rest).takeWhile (· ≠ DELIM) = value := by
    rw [List.takeWhile_append_of_pos hp, List.takeWhile_cons_of_neg (by simp), List.append_nil]
  have hdrop : (value ++ DELIM :: rest).dropWhile (· ≠ DELIM) = DELIM :: rest := by
    rw [List.dropWhile_append_of_pos hp, List.dropWhile_cons_of_neg (by simp)]
  rw [boxedCells, htake, hdrop]

/-- The cells of a packed row in which no value has the delimiter. -/
theorem boxedCells_packRow (h : ∀ p ∈ l, DELIM ∉ p.1.text A get unset p.2) :
    SPC :: boxedCells (l.map Prod.fst) (packRow A get unset l) =
      frame VB SPC (l.map fun p => p.1.cell (p.1.printed A get unset p.2)) ++ [SPC] := by
  induction l with
  | nil => rfl
  | cons p l ih =>
    have hp := h p List.mem_cons_self
    rw [packRow, List.map_cons, List.map_cons, List.flatMap_cons, List.append_assoc, List.singleton_append, boxedCells_cons hp,
      ← packRow, ih fun q hq => h q (List.mem_cons_of_mem _ hq), List.map_cons, frame, ← SelectItem.printed]
    simp only [List.cons_append, List.append_assoc]

/-- The line of a packed row in which no value has the delimiter. -/
theorem boxedLine_packRow (h : ∀ p ∈ l, DELIM ∉ p.1.text A get unset p.2) :
    boxedLine (l.map Prod.fst) (packRow A get unset l) =
      VB :: frame VB SPC (l.map fun p => p.1.cell (p.1.printed A get unset p.2)) ++ [NL] := by
  rw [boxedLine, boxedCells_packRow h, ← List.cons_append, List.dropLast_concat]

theorem delim_cell {value : Text} (h : DELIM ∉ value) : DELIM ∉ it.cell value := by
  rw [SelectItem.cell]
  have hrep : ∀ n, DELIM ∉ List.replicate n SPC := fun n hn => absurd (List.eq_of_mem_replicate hn) (by decide)
  split
  · exact List.not_mem_append h (hrep _)
  · exact List.not_mem_append (hrep _) h
  · exact List.not_mem_nil

theorem delim_boxedCells (its : List SelectItem) (row : Text) : DELIM ∉ boxedCells its row := by
  induction its generalizing row with
  | nil => exact List.not_mem_nil
  | cons it its ih =>
    rw [boxedCells]
    split
    · exact List.not_mem_nil
    · refine List.not_mem_append (delim_cell ?_) ?_
      · split
        · decide
        · intro hm
          exact of_decide_eq_true (@List.mem_takeWhile_imp _ (fun c : Char => decide (c ≠ DELIM)) _ _ hm) rfl
      · intro hm
        rcases List.mem_cons.mp hm with hm | hm
        · exact absurd hm (by decide)
        rcases List.mem_cons.mp hm with hm | hm
        · exact absurd hm (by decide)
        rcases List.mem_cons.mp hm with hm | hm
        · exact absurd hm (by decide)
        exact ih _ hm

/-- No line has the delimiter. -/
theorem delim_boxedLine (its : List SelectItem) (row : Text) : DELIM ∉ boxedLine its row := by
  have hline : DELIM ∉ VB :: SPC :: boxedCells its row := by
    intro hm
    rcases List.mem_cons.mp hm with hm | hm
    · exact absurd hm (by decide)
    rcases List.mem_cons.mp hm with hm | hm
    · exact absurd hm (by decide)
    exact delim_boxedCells its row hm
  exact List.not_mem_append (fun hm => hline (List.dropLast_subset _ hm)) (by decide)

/-! ### One row -/

/-- What one value must be like for its row to be shown. -/
def Fine (A : Arith) (get : Text → A.F) (p : SelectItem × Cond) : Prop :=
  p.1.type.side ≠ .none ∧ (Absent A p.2 → p.1.type.fixes = false ∧ 4 ≤ p.1.outSize) ∧ DELIM ∉ p.1.shown A get p.2

theorem shown_of_fine (hd : Digits A) (hexec : ∀ p ∈ l, (execCondition A p.2).isSome)
    (hfit : ∀ p ∈ l, (p.1.text A get unset p.2).length ≤ p.1.outSize) (h : ∀ p ∈ l, Fine A get p) :
    (∃ cells, boxedLine (l.map Prod.fst) (packRow A get unset l) = VB :: frame VB SPC cells ++ [NL] ∧
      List.Forall₂ (Pads SPC) cells (l.map fun p => p.1.shown A get p.2)) ∧
      (boxedLine (l.map Prod.fst) (packRow A get unset l)).length = (barbwire (l.map Prod.fst)).length := by
  have htext : ∀ p ∈ l, DELIM ∉ p.1.text A get unset p.2 := by
    intro p hp
    by_cases habs : Absent A p.2
    · rw [SelectItem.text_absent habs ((h p hp).2.1 habs).1]
      exact List.not_mem_nil
    · rw [SelectItem.text_present (hexec p hp) habs]
      exact (h p hp).2.2
  have hprinted : ∀ p ∈ l, p.1.printed A get unset p.2 = p.1.shown A get p.2 := fun p hp =>
    SelectItem.printed_eq hd (hexec p hp) fun habs => ((h p hp).2.1 habs).1
  have hsize : ∀ p ∈ l, (p.1.cell (p.1.printed A get unset p.2)).length = p.1.outSize := by
    intro p hp
    rw [SelectItem.length_cell (h p hp).1]
    refine Nat.max_eq_left ?_
    by_cases habs : Absent A p.2
    · rw [hprinted p hp, SelectItem.shown_absent habs]
      exact ((h p hp).2.1 habs).2
    · rw [hprinted p hp, ← @SelectItem.text_present A get unset p.1 p.2 (hexec p hp) habs]
      exact hfit p hp
  rw [boxedLine_packRow htext]
  refine ⟨⟨_, rfl, ?_⟩, ?_⟩
  · rw [List.forall₂_map_left_iff, List.forall₂_map_right_iff, List.forall₂_same]
    exact fun p hp => hprinted p hp ▸ SelectItem.cell_pads (h p hp).1 _
  · have hsizes : l.map (List.length ∘ fun p => p.1.cell (p.1.printed A get unset p.2)) = l.map (SelectItem.outSize ∘ Prod.fst) :=
      List.map_congr_left hsize
    rw [List.length_append, List.length_cons, length_frame, length_barbwire, List.map_map, List.map_map, List.length_map, List.length_map, hsizes]
    rfl

theorem countP_printed_le (hd : Digits A) {p : SelectItem × Cond} (hexec : (execCondition A p.2).isSome) :
    (p.1.cell (p.1.printed A get unset p.2)).countP (· = 'l') ≤ (p.1.shown A get p.2).countP (· = 'l') := by
  refine (SelectItem.countP_cell_le (by decide) _).trans ?_
  by_cases h : Absent A p.2 ∧ p.1.type.fixes = true
  · rw [SelectItem.printed_unset hd h.1 h.2, List.countP_eq_zero.mpr fun c hc => ?_]
    · exact Nat.zero_le _
    · exact fun hl => hd.not_mem _ _ (of_decide_eq_true hl ▸ hc)
  · rw [SelectItem.printed_eq hd hexec fun habs => Bool.eq_false_iff.mpr fun hf => h ⟨habs, hf⟩]

theorem fine_of_shown (hd : Digits A) (hexec : ∀ p ∈ l, (execCondition A p.2).isSome)
    {cells : List Text} (hline : boxedLine (l.map Prod.fst) (packRow A get unset l) = VB :: frame VB SPC cells ++ [NL])
    (hpads : List.Forall₂ (Pads SPC) cells (l.map fun p => p.1.shown A get p.2))
    (hlen : (boxedLine (l.map Prod.fst) (packRow A get unset l)).length = (barbwire (l.map Prod.fst)).length) :
    ∀ p ∈ l, Fine A get p := by
  -- no byte of a line is the delimiter, so no value has it
  have hdelim : ∀ p ∈ l, DELIM ∉ p.1.shown A get p.2 := by
    intro p hp hm
    have hcells : ∃ cell ∈ cells, DELIM ∈ cell := by
      obtain ⟨cell, hcell, hpad⟩ := exists_pads hpads (List.mem_map_of_mem hp)
      exact ⟨cell, hcell, hpad.mem hm⟩
    refine delim_boxedLine (l.map Prod.fst) (packRow A get unset l) (hline ▸ List.mem_append_left _ (List.mem_cons_of_mem _ ?_))
    exact (mem_frame (by decide) (by decide)).mpr hcells
  have htext : ∀ p ∈ l, DELIM ∉ p.1.text A get unset p.2 := by
    intro p hp
    by_cases habs : Absent A p.2
    · cases hf : p.1.type.fixes with
      | false =>
        rw [SelectItem.text_absent habs hf]
        exact List.not_mem_nil
      | true =>
        rw [SelectItem.text_unset habs hf]
        exact hd.delim _ _
    · rw [SelectItem.text_present (hexec p hp) habs]
      exact hdelim p hp
  rw [boxedLine_packRow htext] at hline hlen
  have hframe : frame VB SPC (l.map fun p => p.1.cell (p.1.printed A get unset p.2)) = frame VB SPC cells :=
    (List.cons.inj (List.append_cancel_right hline)).2
  have hlength : cells.length = l.length := hpads.length_eq.trans (List.length_map _)
  have hcount : ∀ q : Char → Bool, q SPC = false →
      (l.map fun p => (p.1.cell (p.1.printed A get unset p.2)).countP q).sum = (l.map fun p => (p.1.shown A get p.2).countP q).sum := by
    intro q hq
    have hc := congrArg (List.countP q) hframe
    rw [countP_frame hq, countP_frame hq, List.length_map, hlength, map_countP hq hpads, List.map_map, List.map_map] at hc
    exact Nat.add_right_cancel hc
  -- the letters of the words for absent values
  have habs : ∀ p ∈ l, Absent A p.2 → p.1.type.fixes = false := by
    intro p hp habs
    by_contra hf
    have hl := eq_of_sum_eq (fun p hp => countP_printed_le hd (hexec p hp)) (hcount (· = 'l') (by decide)) p hp
    rw [SelectItem.shown_absent habs, SelectItem.printed_unset hd habs (Bool.eq_true_of_not_eq_false hf)] at hl
    have hzero : (p.1.cell (A.fixed p.1.outPrec unset)).countP (· = 'l') = 0 :=
      Nat.le_zero.mp ((SelectItem.countP_cell_le (by decide) _).trans
        (List.countP_eq_zero.mpr fun c hc hl => hd.not_mem _ _ (of_decide_eq_true hl ▸ hc)).le)
    rw [hzero] at hl
    exact absurd hl (by decide)
  have hprinted : ∀ p ∈ l, p.1.printed A get unset p.2 = p.1.shown A get p.2 := fun p hp =>
    SelectItem.printed_eq hd (hexec p hp) (habs p hp)
  -- the symbols that are no blanks: the cells are those of the line
  have hcells : (l.map fun p => p.1.cell (p.1.printed A get unset p.2)) = cells := by
    refine frame_inj (by decide) hframe ?_
    rw [map_countP (by decide) hpads, List.map_map, List.map_map]
    refine List.map_congr_left (eq_of_sum_eq (fun p hp => ?_) (hcount (· ≠ SPC) (by decide)))
    exact (SelectItem.countP_cell_le (by decide) _).trans (congrArg (List.countP (· ≠ SPC)) (hprinted p hp)).le
  subst hcells
  rw [List.forall₂_map_left_iff, List.forall₂_map_right_iff, List.forall₂_same] at hpads
  have hside : ∀ p ∈ l, p.1.type.side ≠ .none := by
    intro p hp hs
    have hle := (hpads p hp).length_le
    rw [SelectItem.cell, hs] at hle
    exact SelectItem.shown_ne_nil hd (hexec p hp) (List.length_eq_zero_iff.mp (Nat.le_zero.mp hle))
  -- no cell is longer than its column is wide, as the whole line is not
  have hsizes : (l.map fun p => p.1.outSize).sum = (l.map fun p => (p.1.cell (p.1.printed A get unset p.2)).length).sum := by
    rw [List.length_append, List.length_cons, length_frame, length_barbwire, List.map_map, List.map_map, List.length_map, List.length_map] at hlen
    exact (Nat.add_right_cancel (Nat.add_right_cancel (Nat.add_right_cancel hlen))).symm
  intro p hp
  refine ⟨hside p hp, fun h => ⟨habs p hp h, ?_⟩, hdelim p hp⟩
  have hwidth := eq_of_sum_eq (fun p hp => (SelectItem.length_cell (hside p hp) _).symm ▸ Nat.le_max_left ..) hsizes p hp
  rw [SelectItem.length_cell (hside p hp), hprinted p hp, SelectItem.shown_absent h] at hwidth
  have hfour : "null".toList.length = 4 := rfl
  omega

/-! ### All rows -/

/-- The same item, but for its width. -/
def SelectItem.Like (it it' : SelectItem) : Prop := it'.type = it.type ∧ it'.outPrec = it.outPrec

theorem SelectItem.Like.text {it' : SelectItem} (h : it.Like it') (e : Cond) : it'.text A get unset e = it.text A get unset e := by
  simp only [SelectItem.text, SelectItem.packed, h.1, h.2]

theorem SelectItem.Like.shown {it' : SelectItem} (h : it.Like it') (e : Cond) : it'.shown A get e = it.shown A get e := by
  simp only [SelectItem.shown, h.1, h.2]

/-- `vm::output_expr_list`: the items with their new widths, and the packed row. -/
theorem boxedExprList_some {its' : List SelectItem} {text : Text} (hlen : row.length = its.length)
    (h : boxedExprList A get unset its row = some (its', text)) :
    (∀ e ∈ row, (execCondition A e).isSome) ∧ its' = List.zipWith (fun it e => it.widen (it.text A get unset e)) its row ∧
      text = packRow A get unset (its.zip row) := by
  induction its generalizing row its' text with
  | nil =>
    obtain rfl := List.length_eq_zero_iff.mp hlen
    obtain ⟨rfl, rfl⟩ := Prod.mk.inj (Option.some.inj h)
    exact ⟨nofun, rfl, rfl⟩
  | cons it its ih =>
    cases row with
    | nil => cases hlen
    | cons e row =>
      obtain ⟨res, hres, h⟩ := Option.bind_eq_some_iff.mp h
      obtain ⟨⟨its'', text'⟩, hrest, h⟩ := Option.bind_eq_some_iff.mp h
      obtain ⟨rfl, rfl⟩ := Prod.mk.inj (Option.some.inj h)
      obtain ⟨hexec, rfl, rfl⟩ := ih (Nat.succ.inj hlen) hrest
      have htext : it.packed A get unset res = it.text A get unset e := by rw [SelectItem.text, hres, Option.getD_some]
      refine ⟨List.forall_mem_cons.mpr ⟨Option.isSome_of_eq_some hres, hexec⟩, by rw [htext, List.zipWith_cons_cons], ?_⟩
      rw [htext, List.zip_cons_cons, packRow, packRow, List.map_cons, List.flatMap_cons, List.append_assoc, List.singleton_append]

theorem packRow_like {its' : List SelectItem} (h : List.Forall₂ SelectItem.Like its its') (row : List Cond) :
    packRow A get unset (its'.zip row) = packRow A get unset (its.zip row) := by
  induction h generalizing row with
  | nil => rfl
  | cons hlike h ih =>
    cases row with
    | nil => rfl
    | cons e row =>
      have hrow := ih row
      rw [packRow, packRow] at hrow ⊢
      rw [List.zip_cons_cons, List.zip_cons_cons, List.map_cons, List.map_cons, List.flatMap_cons, List.flatMap_cons, hlike.text e, hrow]

theorem like_widen (hlen : row.length = its.length) (f : SelectItem → Cond → Text) :
    List.Forall₂ SelectItem.Like its (List.zipWith (fun it e => it.widen (f it e)) its row) := by
  induction its generalizing row with
  | nil => exact .nil
  | cons it its ih =>
    cases row with
    | nil => cases hlen
    | cons e row => exact .cons ⟨rfl, rfl⟩ (ih (Nat.succ.inj hlen))

theorem like_trans {its' its'' : List SelectItem} (h : List.Forall₂ SelectItem.Like its its') (h' : List.Forall₂ SelectItem.Like its' its'') :
    List.Forall₂ SelectItem.Like its its'' := by
  induction h generalizing its'' with
  | nil => exact h'
  | cons hlike h ih =>
    cases h' with
    | cons hlike' h' => exact .cons ⟨hlike'.1.trans hlike.1, hlike'.2.trans hlike.2⟩ (ih h')

/-- Every column is as wide as it was or as its longest value. -/
def Widened (A : Arith) (get : Text → A.F) (unset : A.F) (its its' : List SelectItem) (rows : List (List Cond)) : Prop :=
  ∀ (i : ℕ) (it it' : SelectItem), its[i]? = some it → its'[i]? = some it' → ∀ k, k ≤ it'.outSize ↔
    k ≤ it.outSize ∨ ∃ row ∈ rows, ∃ e, row[i]? = some e ∧ k ≤ (it.text A get unset e).length

/-- `vm::output_expr_list`, of all rows. -/
theorem outputRows_some {its' : List SelectItem} {texts : List Text} (hlen : ∀ row ∈ rows, row.length = its.length)
    (h : outputRows A get unset its rows = some (its', texts)) :
    List.Forall₂ SelectItem.Like its its' ∧ Widened A get unset its its' rows ∧ (∀ row ∈ rows, ∀ e ∈ row, (execCondition A e).isSome) ∧
      texts = rows.map fun row => packRow A get unset (its.zip row) := by
  induction rows generalizing its its' texts with
  | nil =>
    obtain ⟨rfl, rfl⟩ := Prod.mk.inj (Option.some.inj h)
    refine ⟨List.forall₂_same.mpr fun _ _ => ⟨rfl, rfl⟩, ?_, nofun, rfl⟩
    intro i it it' hi hi' k
    obtain rfl := Option.some.inj (hi.symm.trans hi')
    exact ⟨.inl, fun h => h.elim id nofun⟩
  | cons row rows ih =>
    obtain ⟨⟨its₁, text⟩, hrow, h⟩ := Option.bind_eq_some_iff.mp h
    obtain ⟨⟨its₂, texts'⟩, hrows, h⟩ := Option.bind_eq_some_iff.mp h
    obtain ⟨rfl, rfl⟩ := Prod.mk.inj (Option.some.inj h)
    have hlen₀ := hlen row List.mem_cons_self
    obtain ⟨hexec, rfl, rfl⟩ := boxedExprList_some hlen₀ hrow
    have hlike := like_widen hlen₀ (SelectItem.text A get unset)
    have hlen' : ∀ r ∈ rows, r.length = (List.zipWith (fun it e => SelectItem.widen it (it.text A get unset e)) its row).length := by
      intro r hr
      rw [hlen r (List.mem_cons_of_mem _ hr), hlike.length_eq]
    obtain ⟨hlike', hwide, hexec', rfl⟩ := ih hlen' hrows
    refine ⟨like_trans hlike hlike', ?_, List.forall_mem_cons.mpr ⟨hexec, hexec'⟩, ?_⟩
    · intro i it it' hi hi' k
      obtain ⟨hilt, rfl⟩ := List.getElem?_eq_some_iff.mp hi
      have hir : i < row.length := hlen₀ ▸ hilt
      have hi₁ : (List.zipWith (fun it e => SelectItem.widen it (it.text A get unset e)) its row)[i]? =
          some (its[i].widen (its[i].text A get unset row[i])) := by
        rw [List.getElem?_zipWith, List.getElem?_eq_getElem hilt, List.getElem?_eq_getElem hir]
      rw [hwide i _ it' hi₁ hi' k]
      simp only [SelectItem.widen, le_max_iff, List.exists_mem_cons_iff, List.getElem?_eq_getElem hir, Option.some.injEq, exists_eq_left', or_assoc]
      rfl
    · rw [List.map_cons]
      exact congrArg _ (List.map_congr_left fun r _ => packRow_like hlike r)

theorem length_titleLine : (titleLine its).length = (barbwire its).length := by
  have hsizes : its.map (List.length ∘ fun it => it.title ++ List.replicate (it.outSize - it.title.length) SPC) = its.map SelectItem.outSize := by
    refine List.map_congr_left fun it _ => ?_
    have htitled := it.titled
    rw [Function.comp, List.length_append, List.length_replicate]
    omega
  rw [titleLine, List.length_append, List.length_cons, length_frame, length_barbwire, List.map_map, List.length_map, hsizes]
  rfl

theorem wide_iff {its' : List SelectItem} {i : ℕ} {it' : SelectItem} (hwide : Widened A get unset its its' rows)
    (hexec : ∀ row ∈ rows, ∀ e ∈ row, (execCondition A e).isSome) (hi : its[i]? = some it) (hi' : its'[i]? = some it')
    (hf : it.type.fixes = false) : Wide A get its rows i ↔ 4 ≤ it'.outSize := by
  rw [hwide i it it' hi hi' 4]
  constructor
  · rintro ⟨it₀, hi₀, h⟩
    obtain rfl := Option.some.inj (hi.symm.trans hi₀)
    refine h.imp_right ?_
    rintro ⟨row, hrow, e, he, habs, hle⟩
    exact ⟨row, hrow, e, he, (SelectItem.text_present (hexec row hrow e (List.mem_of_getElem? he)) habs).symm ▸ hle⟩
  · intro h
    refine ⟨it, hi, h.imp_right ?_⟩
    rintro ⟨row, hrow, e, he, hle⟩
    have habs : ¬Absent A e := fun habs => by
      rw [SelectItem.text_absent habs hf] at hle
      cases hle
    exact ⟨row, hrow, e, he, habs, SelectItem.text_present (hexec row hrow e (List.mem_of_getElem? he)) habs ▸ hle⟩

theorem like_getElem? {its' : List SelectItem} (h : List.Forall₂ SelectItem.Like its its') {i : ℕ} {it' : SelectItem} (hi : its[i]? = some it)
    (hi' : its'[i]? = some it') : it.Like it' := by
  induction h generalizing i with
  | nil => cases hi
  | cons hlike h ih =>
    cases i with
    | zero =>
      obtain rfl := Option.some.inj hi
      obtain rfl := Option.some.inj hi'
      exact hlike
    | succ i => exact ih hi hi'

/-- The lines of a box are as long as the line around it if the lines of its rows are. -/
theorem boxShows_iff {its' : List SelectItem} (f : List Cond → Text) : BoxShows A get its' rows (rows.map f) ↔
    ∀ row ∈ rows, Shows A get its' row (boxedLine its' (f row)) ∧ (boxedLine its' (f row)).length = (barbwire its').length := by
  have hzip : rows.zip (rows.map f) = rows.map fun row => (row, f row) := by
    induction rows with
    | nil => rfl
    | cons row rows ih => rw [List.map_cons, List.zip_cons_cons, ih, List.map_cons]
  rw [BoxShows, hzip, List.forall_mem_map]
  constructor
  · rintro ⟨hshows, hlens⟩ row hrow
    exact ⟨hshows row hrow, hlens _ (List.mem_append_left _ (List.mem_append_right _ (List.mem_map_of_mem (List.mem_map_of_mem hrow))))⟩
  · intro h
    refine ⟨fun row hrow => (h row hrow).1, fun line hline => ?_⟩
    rcases List.mem_append.mp hline with hline | hline
    · rcases List.mem_append.mp hline with hline | hline
      · have hwire : line = barbwire its' ∨ line = titleLine its' := by simpa [or_comm, or_left_comm] using hline
        rcases hwire with rfl | rfl
        · rfl
        · exact length_titleLine
      · rw [List.map_map] at hline
        obtain ⟨row, hrow, rfl⟩ := List.mem_map.mp hline
        exact (h row hrow).2
    · exact congrArg List.length (List.mem_singleton.mp hline)

/-- The box shows the rows of a result, with its lines of the same length, if and only if every value is
printed as it is: its expression has a type that is printed, no value has the byte that is put behind values,
and an absent value is not the result of arithmetic and has a column that is wide enough for its word. -/
theorem boxed_iff (hd : Digits A) {its' : List SelectItem} {texts : List Text}
    (htypes : ∀ row ∈ rows, row.map Cond.itemType = its.map SelectItem.type) (h : outputRows A get unset its rows = some (its', texts)) :
    BoxShows A get its' rows texts ↔ ∀ row ∈ rows, ∀ i, PrintsAt A get its rows row i := by
  have hlen : ∀ row ∈ rows, row.length = its.length := fun row hrow => by
    have hmap := congrArg List.length (htypes row hrow)
    rwa [List.length_map, List.length_map] at hmap
  obtain ⟨hlike, hwide, hexec, rfl⟩ := outputRows_some hlen h
  have hlen' : its'.length = its.length := hlike.length_eq.symm
  rw [boxShows_iff]
  refine forall₂_congr fun row hrow => ?_
  have hfst : (its'.zip row).map Prod.fst = its' := List.map_fst_zip (by rw [hlen row hrow, hlen'])
  have hexec' : ∀ p ∈ its'.zip row, (execCondition A p.2).isSome := fun p hp => hexec row hrow p.2 (List.of_mem_zip hp).2
  -- the item that stands at each place in the end
  have hzip : ∀ (i : ℕ) (it : SelectItem) (e : Cond), its[i]? = some it → row[i]? = some e → ∃ it', its'[i]? = some it' ∧ (it', e) ∈ its'.zip row := by
    intro i it e hi he
    obtain ⟨hilt, -⟩ := List.getElem?_eq_some_iff.mp hi
    have hi' : its'[i]? = some its'[i] := List.getElem?_eq_getElem (hlen' ▸ hilt)
    exact ⟨its'[i], hi', List.mem_of_getElem? (List.getElem?_zip_eq_some.mpr ⟨hi', he⟩)⟩
  have hunzip : ∀ p ∈ its'.zip row, ∃ (i : ℕ) (it : SelectItem), its[i]? = some it ∧ its'[i]? = some p.1 ∧ row[i]? = some p.2 := by
    intro p hp
    obtain ⟨i, hi⟩ := List.getElem?_of_mem hp
    obtain ⟨hi', he⟩ := List.getElem?_zip_eq_some.mp hi
    obtain ⟨hilt, -⟩ := List.getElem?_eq_some_iff.mp hi'
    exact ⟨i, _, List.getElem?_eq_getElem (hlen' ▸ hilt), hi', he⟩
  have hfine : (∀ i, PrintsAt A get its rows row i) ↔ ∀ p ∈ its'.zip row, Fine A get p := by
    have hat : ∀ (i : ℕ) (it it' : SelectItem) (e : Cond), its[i]? = some it → its'[i]? = some it' →
        ((it.type.side ≠ .none ∧ (Absent A e → it.type.fixes = false ∧ Wide A get its rows i) ∧ DELIM ∉ it.shown A get e) ↔
          Fine A get (it', e)) := by
      intro i it it' e hi hi'
      have hl := like_getElem? hlike hi hi'
      rw [Fine, hl.1, hl.shown e]
      refine and_congr_right fun _ => and_congr_left fun _ => forall_congr' fun _ => and_congr_right fun hf => ?_
      exact wide_iff hwide hexec hi hi' hf
    constructor
    · intro h p hp
      obtain ⟨i, it, hi, hi', he⟩ := hunzip p hp
      exact (hat i it p.1 p.2 hi hi').mp (h i it p.2 hi he)
    · intro h i it e hi he
      obtain ⟨it', hi', hp⟩ := hzip i it e hi he
      exact (hat i it it' e hi hi').mpr (h _ hp)
  rw [hfine, ← packRow_like hlike]
  constructor
  · rintro ⟨⟨cells, hline, hpads⟩, hlens⟩
    refine fine_of_shown hd hexec' (by rw [hfst]; exact hline) hpads (by rw [hfst]; exact hlens)
  · intro h
    have hfit : ∀ p ∈ its'.zip row, (p.1.text A get unset p.2).length ≤ p.1.outSize := by
      intro p hp
      obtain ⟨i, it, hi, hi', he⟩ := hunzip p hp
      rw [(like_getElem? hlike hi hi').text p.2]
      exact (hwide i it p.1 hi hi' _).mpr (.inr ⟨row, hrow, p.2, he, le_rfl⟩)
    have hshown := shown_of_fine hd hexec' hfit h
    rwa [hfst] at hshown

/-! ### Two boxes -/

theorem digits_whole : Digits wholeNumbers := by
  have hchars : ∀ z : ℤ, ∀ c ∈ intToText z, c.isDigit = true ∨ c = '-' := by
    intro z c hc
    cases z with
    | ofNat n => exact .inl (toText_digits hc)
    | negSucc n => exact (List.mem_cons.mp hc).symm.imp_left toText_digits
  refine ⟨fun prec z => ?_, fun prec z hc => ?_, fun prec z hc => ?_⟩
  · cases z with
    | ofNat n => exact toText_ne_nil n
    | negSucc n => exact List.cons_ne_nil _ _
  · exact absurd (hchars z _ hc) (by decide)
  · exact absurd (hchars z _ hc) (by decide)

/-- The number at the front of a text, zero if there is none. -/
def readInt (text : Text) : ℤ := (stoi text).getD 0

/-- An item of a column, as wide as its title. -/
def columnItem (title : Text) (type : ColType) : SelectItem := ⟨.column type, title.length, 4, title, le_rfl⟩

/-- The item of a column of a row. -/
def columnOf (title : Text) (type : ColType) (value : Text) : Cond := .column ([], "t".toList) title type false value

/-- A column of names, one of them absent. -/
theorem boxed_names : ∃ its' texts,
    outputRows wholeNumbers readInt (0 : ℤ) [columnItem "name".toList .varchar]
      [[columnOf "name".toList .varchar "ann".toList], [columnOf "name".toList .varchar []]] = some (its', texts) ∧
    BoxShows wholeNumbers readInt its'
      [[columnOf "name".toList .varchar "ann".toList], [columnOf "name".toList .varchar []]] texts := by
  refine ⟨_, _, rfl, (@boxed_iff wholeNumbers readInt (0 : ℤ) [columnItem "name".toList .varchar] _ digits_whole _ _ ?_ rfl).mpr ?_⟩
  · decide
  intro row hrow i it e hi he
  cases i with
  | succ i => cases hi
  | zero =>
    obtain rfl := Option.some.inj hi
    refine ⟨by decide, fun _ => ⟨rfl, columnItem "name".toList .varchar, rfl, .inl (by decide)⟩, ?_⟩
    rcases List.mem_pair.mp hrow with rfl | rfl <;> obtain rfl := Option.some.inj he <;> decide

/-- A column of numbers with a short title, one of them absent: its line is longer than the line around the box. -/
theorem box_of_absent : ∃ its' texts,
    outputRows wholeNumbers readInt (0 : ℤ) [columnItem "x".toList .int] [[columnOf "x".toList .int []]] =
      some (its', texts) ∧
    ¬BoxShows wholeNumbers readInt its' [[columnOf "x".toList .int []]] texts := by
  refine ⟨_, _, rfl, fun h => ?_⟩
  have hline := h.2 "| null |\n".toList (by decide)
  exact absurd hline (by decide)

end RedB.Dml
