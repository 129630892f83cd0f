import RedB.Dml.DataLexer
import RedB.Dml.Codec
import RedB.Dml.Unique

/-!
# SELECT .. INTO OUTFILE and LOAD DATA

`SELECT * FROM t INTO OUTFILE` writes a line for each row, in which the values of CHAR and VARCHAR
columns are quoted and the others are not. LOAD DATA reads the lines, appends the values of each to a
row and inserts it.

The rows come back into an empty table if and only if each value that is not quoted is one number that
its column takes, which no negative number and no absent value is, and no two rows have the same key
in a unique index (`outfile_loads_iff`).
-/

namespace RedB.Dml

open StableSort Runs

variable (A : Arith)

-- `std::istringstream >>` of a number, zero if there is none
variable (get : Text → A.F)

/-! ### The file -/

/-- Whether the values of a column are quoted: `m_quote` of an item that `vm::make_asterisk_expression` makes. -/
def Column.quotes (col : Column) : Bool := col.type = .char || col.type = .varchar

/-- The items of `SELECT *`. -/
def cells (cols : List Column) (r : Row) : List Cell := List.zipWith (fun col value => ⟨col.quotes, value⟩) cols r.values

/-- A row of the result, with the columns of ORDER BY. -/
def resultRow (cols keyList : List Column) (r : Row) : ResultRow :=
  { data := []
    values := keyList.map fun col => ((columnPos cols col.name).map r.valueAt).getD []
    cells := cells cols r }

/-- `vm::output_result`: the file of `SELECT * .. ORDER BY .. INTO OUTFILE`. -/
def outfile (cols keyList : List Column) (rows : List Row) : Text :=
  (lines A get true keyList (rows.map (resultRow cols keyList))).flatMap fun line => line ++ ['\n']

/-- The lines of a file, of `std::getline`, behind the beginning of a line. -/
def getLines (line : Text) : Text → List Text
  | [] => if line = [] then [] else [line]
  | c :: cs => if c = '\n' then line :: getLines [] cs else getLines (line ++ [c]) cs

/-- `vm::load_data`, of a file. -/
def loadInfile (db : Db) (file : Text) : M Unit := do
  let t ← MonadState.get
  loadData A db ((getLines [] file).map (getData t.columns.length))

/-! ### What is exported -/

/-- A live row: made by `row::append`, and each of its values is shorter than 256 bytes, so that its size
is in its byte. -/
def Live (cols : List Column) (r : Row) : Prop :=
  ∃ values texts, storeAll A cols values = some texts ∧ texts.flatten.length ≤ capacity cols ∧ (∀ text ∈ texts, text.length < 256) ∧
    r = Row.ofTexts texts

/-- A value that is read and stored again as it is: in a column that is not quoted, it is a number for the
lexer, and the column takes it. -/
def Returns (col : Column) (value : Text) : Prop := col.quotes = false → Plain value ∧ col.accepts A value = true

/-- What is printed is read and printed again as it was, and it is in one piece. -/
structure Prints : Prop where
  again : ∀ k prec value x y, A.stof value = some x → Plain (List.replicate k '0' ++ A.fixed prec x) →
    A.stof (List.replicate k '0' ++ A.fixed prec x) = some y → A.fixed prec y = A.fixed prec x
  inOne : ∀ prec x, splits (A.fixed prec x) = false

variable {A get} {col : Column} {cols : List Column} {value text : Text} {values texts : List Text}

/-! ### Lines -/

theorem getLines_append (pre line file : Text) (h : '\n' ∉ line) : getLines pre (line ++ '\n' :: file) = (pre ++ line) :: getLines [] file := by
  induction line generalizing pre with
  | nil => rw [List.nil_append, getLines, if_pos rfl, List.append_nil]
  | cons c cs ih =>
    have hc : c ≠ '\n' := fun hc => h (hc ▸ List.mem_cons_self)
    rw [List.cons_append, getLines, if_neg hc, ih _ fun hm => h (List.mem_cons_of_mem _ hm), List.append_assoc]
    rfl

/-- The lines of a file are those that were written. -/
theorem getLines_flatMap (ls : List Text) (h : ∀ line ∈ ls, '\n' ∉ line) : getLines [] (ls.flatMap fun line => line ++ ['\n']) = ls := by
  induction ls with
  | nil => rfl
  | cons line ls ih =>
    rw [List.flatMap_cons, List.append_assoc, List.singleton_append, getLines_append _ _ _ (h _ List.mem_cons_self),
      ih fun l hl => h l (List.mem_cons_of_mem _ hl)]
    rfl

theorem newline_rowText {cells : List Cell} (h : ∀ cell ∈ cells, Clean cell.text) (i : ℕ) : '\n' ∉ rowText true i cells := by
  induction cells generalizing i with
  | nil => exact List.not_mem_nil
  | cons cell cells ih =>
    have htext : '\n' ∉ cell.text := fun hm => (h cell List.mem_cons_self _ hm).2.1 rfl
    have hcell : '\n' ∉ (if cell.quote then '"' :: cell.text ++ ['"'] else cell.text) := by
      split
      · simp [htext]
      · exact htext
    have hsep : '\n' ∉ (if 0 < i then ", ".toList else []) := by
      split
      · decide
      · exact List.not_mem_nil
    rw [rowText, if_pos rfl]
    simp only [List.mem_append, not_or]
    exact ⟨⟨hsep, hcell⟩, ih (fun c hc => h c (List.mem_cons_of_mem _ hc)) (i + 1)⟩

/-- The lines are those of the rows, in some order. -/
theorem lines_perm (file : Bool) (keyList : List Column) (rows : List ResultRow) :
    (lines A get file keyList rows).Perm (rows.map fun r => rowText file keyList.length r.cells) := by
  have hfold : ∀ output : Output, ((rows.foldl (outputExprList A get file keyList) output).map Prod.snd).Perm
      (output.map Prod.snd ++ rows.map fun r => rowText file keyList.length r.cells) := by
    induction rows with
    | nil => exact fun output => by rw [List.map_nil, List.append_nil]; rfl
    | cons r rows ih =>
      intro output
      have hinsert := (@insertLast_perm _ (fun p q : Text × Text => decide (p.1 ≤ q.1)) (if keyList = [] then padLeft 20 '0' (toText output.length) else orderKey A get keyList r.values,
          rowText file keyList.length r.cells) output).map Prod.snd
      rw [List.foldl_cons, List.map_cons]
      refine (ih _).trans ((hinsert.append_right _).trans ?_)
      rw [List.map_cons, List.cons_append]
      exact List.perm_middle.symm
  exact hfold []

/-! ### Lines that are loaded -/

/-- A row that is made of a line. -/
def Loads (A : Arith) (cols : List Column) (line : Option (List Text)) (r : Row) : Prop :=
  ∃ values, line = some values ∧ values.length = cols.length ∧ makeRow A cols values = some r

theorem length_loadLines (db : Db) (ls : List (Option (List Text))) (rw_ : Row) (t : Table) :
    (after (loadLines A db ls rw_ t)).rows.length ≤ t.rows.length + ls.length := by
  induction ls generalizing rw_ t with
  | nil => exact le_rfl
  | cons line ls ih =>
    rw [List.length_cons]
    cases line with
    | none => exact (ih rw_ t).trans (by omega)
    | some values =>
      rw [loadLines, get_bind]
      split
      · obtain ⟨c, hc, -⟩ := loadRow_after (A := A) 0 values rw_ t
        cases hr : loadRow A 0 values rw_ t with
        | error e t' =>
          rw [hr, after_error] at hc
          rw [bind_throw hr, after_error, hc, Table.withColumns_rows]
          omega
        | ok r t' =>
          rw [hr, after_ok] at hc
          subst hc
          rw [bind_run hr, get_bind]
          cases verifyForeignKey db (t.withColumns c) r with
          | none =>
            show (t.withColumns c).rows.length ≤ _
            rw [Table.withColumns_rows]
            omega
          | some _ =>
            dsimp only
            by_cases hv : verifyUniqueKey (t.withColumns c) r = true
            · rw [if_pos hv, set_bind]
              apply (ih _ _).trans
              rw [Table.insert_rows, List.length_append, Table.withColumns_rows, List.length_singleton]
              omega
            · rw [if_neg hv]
              apply (ih _ _).trans
              rw [Table.withColumns_rows]
              omega
      · exact (ih rw_ t).trans (by omega)

/-- Without foreign keys every row is verified. -/
theorem verifyForeignKey_nil {db : Db} {t : Table} {r : Row} (h : t.foreignList = []) : verifyForeignKey db t r = some true := by
  rw [verifyForeignKey, h]
  rfl

/-- If as many rows are loaded as there are lines, they are the rows of these lines, and their keys are
different. -/
theorem loadLines_all {db : Db} {ls : List (Option (List Text))} {rw_ : Row} {t : Table} (ht : t.Tidy) (hunique : UniqueKeys t)
    (hfgn : t.foreignList = []) (hauto : ∀ col ∈ t.columns, col.isAutoInc = false) (hdata : rw_.data = []) (hs : rw_.sizes.length = t.columns.length)
    (h : t.rows.length + ls.length ≤ (after (loadLines A db ls rw_ t)).rows.length) :
    ∃ rs, List.Forall₂ (Loads A t.columns) ls rs ∧ (after (loadLines A db ls rw_ t)).rows.map Prod.snd = t.rows.map Prod.snd ++ rs ∧
      ∀ ndx ∈ t.indexList, ndx.isUnique = true → ((t.rows.map Prod.snd ++ rs).map (t.key ndx)).Nodup := by
  induction ls generalizing rw_ t with
  | nil =>
    refine ⟨[], .nil, (List.append_nil _).symm, fun ndx hm hu => ?_⟩
    rw [List.append_nil, List.map_map]
    exact hunique ndx hm hu
  | cons line ls ih =>
    rw [List.length_cons] at h
    cases line with
    | none =>
      have := length_loadLines (A := A) db ls rw_ t
      rw [loadLines] at h
      omega
    | some values =>
      rw [loadLines, get_bind] at h ⊢
      split at h
      · rename_i hlen
        rw [if_pos hlen]
        cases hr : loadRow A 0 values rw_ t with
        | error e t' =>
          obtain ⟨c, hc, -⟩ := loadRow_after (A := A) 0 values rw_ t
          rw [hr, after_error] at hc
          rw [bind_throw hr, after_error, hc, Table.withColumns_rows] at h
          omega
        | ok r t' =>
          obtain ⟨hmake, rfl⟩ := (loadRow_iff hauto hdata hs hlen).mp hr
          rw [bind_run hr, get_bind, verifyForeignKey_nil hfgn] at h ⊢
          dsimp only at h ⊢
          by_cases hv : verifyUniqueKey t' r = true
          · rw [if_pos hv, set_bind] at h ⊢
            obtain ⟨rs, hrs, hrows, hkeys⟩ := @ih r.clear (t'.insert r) (ht.insert r) (uniqueKeys_insert ht hunique hv) hfgn hauto rfl
              (show r.sizes.length = t'.columns.length from length_makeRow hmake) (by
                rw [Table.insert_rows, List.length_append, List.length_singleton]
                omega)
            have happend : (t'.insert r).rows.map Prod.snd ++ rs = t'.rows.map Prod.snd ++ r :: rs := by
              rw [Table.insert_rows, List.map_append, List.append_assoc]
              rfl
            rw [happend] at hrows hkeys
            refine ⟨r :: rs, .cons ⟨values, rfl, hlen, hmake⟩ hrs, hrows, fun ndx hm hu => ?_⟩
            exact hkeys { ndx with elements := ndx.elements ++ [(t'.key ndx r, t'.next)] } (List.mem_map.mpr ⟨ndx, hm, rfl⟩) hu
          · rw [if_neg hv] at h
            have := length_loadLines (A := A) db ls r t'
            omega
      · have := length_loadLines (A := A) db ls rw_ t
        omega

/-- Rows with different keys are all loaded. -/
theorem loadLines_rows {db : Db} {ls : List (Option (List Text))} {rs : List Row} {rw_ : Row} {t : Table} (ht : t.Tidy)
    (hfgn : t.foreignList = []) (hauto : ∀ col ∈ t.columns, col.isAutoInc = false) (hdata : rw_.data = [])
    (hs : rw_.sizes.length = t.columns.length) (hls : List.Forall₂ (Loads A t.columns) ls rs)
    (hkeys : ∀ ndx ∈ t.indexList, ndx.isUnique = true → ((t.rows.map Prod.snd ++ rs).map (t.key ndx)).Nodup) :
    (after (loadLines A db ls rw_ t)).rows.map Prod.snd = t.rows.map Prod.snd ++ rs := by
  generalize hcols : t.columns = cols at hls
  induction hls generalizing rw_ t with
  | nil => exact (List.append_nil _).symm
  | @cons line r ls rs hload _ ih =>
    subst hcols
    obtain ⟨values, rfl, hlen, hmake⟩ := hload
    have hr := (@loadRow_iff _ _ _ t _ _ hauto hdata hs hlen).mpr ⟨hmake, rfl⟩
    have hv : verifyUniqueKey t r = true := by
      refine (verifyUniqueKey_iff ht).mpr fun ndx hm hu q hq hkey => ?_
      have hnodup := hkeys ndx hm hu
      rw [List.map_append, List.map_cons, List.map_map] at hnodup
      exact (List.nodup_append.mp hnodup).2.2 _ (List.mem_map.mpr ⟨q, hq, rfl⟩) _ List.mem_cons_self hkey
    have happend : t.rows.map Prod.snd ++ r :: rs = (t.insert r).rows.map Prod.snd ++ rs := by
      rw [Table.insert_rows, List.map_append, List.append_assoc]
      rfl
    rw [loadLines, get_bind, if_pos hlen, bind_run hr, get_bind, verifyForeignKey_nil hfgn]
    dsimp only
    rw [if_pos hv, set_bind, happend]
    refine @ih r.clear (t.insert r) (ht.insert r) hfgn hauto rfl (show r.sizes.length = t.columns.length from length_makeRow hmake)
      (fun ndx hm hu => ?_) rfl
    obtain ⟨ndx', hm', rfl⟩ := List.mem_map.mp hm
    rw [← happend]
    exact hkeys ndx' hm' hu

/-! ### Values of columns -/

theorem splits_replicate (k : ℕ) (value : Text) : splits (List.replicate k '0' ++ value) = splits value := by
  rw [Bool.eq_iff_iff, ← not_iff_not, Bool.not_eq_true, Bool.not_eq_true, splits_eq_false, splits_eq_false]
  have hcount : (List.replicate k '0' ++ value).count '.' = value.count '.' := by
    rw [List.count_append, List.count_replicate, if_neg (by decide), Nat.zero_add]
  rw [hcount]
  refine and_congr_left fun _ => ⟨fun h c hc => h c (List.mem_append_right _ hc), fun h c hc => ?_⟩
  rcases List.mem_append.mp hc with hc | hc
  · obtain ⟨-, rfl⟩ := List.mem_replicate.mp hc
    exact ⟨rfl, by decide⟩
  · exact h c hc

theorem splits_intToText (z : ℤ) : splits (intToText z) = false := by
  have hdigits : ∀ n, ∀ c ∈ toText n, (isSpace c = false ∧ c ≠ ',') ∧ c ≠ '.' := by
    intro n c hc
    have hd := toText_digits hc
    have hne : ∀ d, d.isDigit = false → c ≠ d := by
      rintro d hf rfl
      rw [hd] at hf
      cases hf
    exact ⟨⟨isSpace_of_isDigit hd, hne _ (by decide)⟩, hne _ (by decide)⟩
  have hcount : ∀ n, (toText n).count '.' = 0 := fun n => List.count_eq_zero_of_not_mem fun hm => (hdigits n _ hm).2 rfl
  rw [splits_eq_false]
  cases z with
  | ofNat n => exact ⟨fun c hc => (hdigits n c hc).1, (hcount n).le.trans (Nat.zero_le 1)⟩
  | negSucc n =>
    show (∀ c ∈ '-' :: toText (n + 1), _) ∧ ('-' :: toText (n + 1)).count '.' ≤ 1
    refine ⟨List.forall_mem_cons.mpr ⟨⟨rfl, by decide⟩, fun c hc => (hdigits _ c hc).1⟩, ?_⟩
    rw [List.count_cons, hcount]
    decide

/-- What is stored does not split where the value does not. -/
theorem splits_take (hA : Prints A) (ha : col.isAutoInc = false) (h : col.take A value = some text) (hs : splits value = false) :
    splits text = false := by
  rw [Column.take] at h
  split at h
  · rw [Column.store, Column.format, ha, if_neg (by decide)] at h
    have hvalue : splits (if value = "null".toList then [] else value) = false := by
      split
      · rfl
      · exact hs
    split at h
    · split at h
      · obtain ⟨x, -, rfl⟩ := Option.map_eq_some_iff.mp h
        rw [padLeft, splits_replicate]
        exact hA.inOne _ _
      · obtain ⟨z, -, rfl⟩ := Option.map_eq_some_iff.mp h
        rw [padLeft, splits_replicate]
        exact splits_intToText z
      · obtain rfl := Option.some.inj h
        exact hvalue
    · split at h
      · obtain rfl := Option.some.inj h
        cases A.stof (if value = "null".toList then [] else value) with
        | none => rfl
        | some x => exact hA.inOne _ x
      · obtain rfl := Option.some.inj h
        cases stoi (if value = "null".toList then [] else value) with
        | none => rfl
        | some z => exact splits_intToText z
      · split at h
        · split at h
          · obtain rfl := Option.some.inj h
            rfl
          · split at h
            · obtain rfl := Option.some.inj h
              rfl
            · obtain rfl := Option.some.inj h
              rfl
        · split at h
          · obtain rfl := Option.some.inj h
            rfl
          · split at h
            · obtain rfl := Option.some.inj h
              rfl
            · obtain rfl := Option.some.inj h
              rfl
      · obtain rfl := Option.some.inj h
        exact hvalue
  · cases h

/-- No more texts of a row split than values that it was made of. -/
theorem countP_storeAll (hA : Prints A) (hauto : ∀ col ∈ cols, col.isAutoInc = false) (h : storeAll A cols values = some texts) :
    texts.countP splits ≤ values.countP splits := by
  induction cols generalizing values texts with
  | nil =>
    obtain rfl := Option.some.inj h
    exact Nat.zero_le _
  | cons col cols ih =>
    cases values with
    | nil => cases h
    | cons value values =>
      obtain ⟨text, ht, h'⟩ := Option.bind_eq_some_iff.mp h
      obtain ⟨rest, hrest, hcons⟩ := Option.bind_eq_some_iff.mp h'
      obtain rfl := Option.some.inj hcons
      have hle := ih (fun c hc => hauto c (List.mem_cons_of_mem _ hc)) hrest
      rw [List.countP_cons, List.countP_cons]
      cases hs : splits value with
      | true =>
        rw [if_pos rfl]
        split
        · omega
        · omega
      | false =>
        rw [splits_take hA (hauto col List.mem_cons_self) ht hs, if_neg (by decide)]
        exact hle

/-- A quoted value is stored again as it is. -/
theorem take_quoted (hq : col.quotes = true) (h : col.take A value = some text) : col.take A text = some text := by
  have htype : col.type = .char ∨ col.type = .varchar := by
    rw [Column.quotes, Bool.or_eq_true, decide_eq_true_eq, decide_eq_true_eq] at hq
    exact hq
  have hformat : ∀ v, col.format A v = some v := by
    intro v
    rw [Column.format]
    rcases htype with ht | ht <;> simp only [ht, ite_self]
  rw [Column.take] at h
  split at h
  · rename_i hacc
    rw [Column.store, hformat] at h
    split at h
    · obtain rfl := Option.some.inj h
      have hnull : col.notNullCompliant [] = true := by
        rw [Column.notNullCompliant, decide_eq_true (show Tran.lower [] ≠ "null".toList by decide), Bool.or_true]
      have hvalid : col.isValid A [] = true := by
        rw [Column.isValid, hnull, if_neg (by decide), if_neg (by decide), if_neg (by simp)]
        rcases htype with ht | ht <;> rw [ht]
      rw [Column.take, Column.accepts, hvalid, Bool.true_and,
        if_pos (show decide (([] : Text).length ≤ col.size) = true from decide_eq_true (Nat.zero_le _)), Column.store, if_neg (by decide), hformat]
    · rename_i hne
      obtain rfl := Option.some.inj h
      rw [Column.take, if_pos hacc, Column.store, if_neg hne, hformat]
  · cases h

theorem plain_ne_null (h : Plain value) : value ≠ "null".toList := by
  rintro rfl
  exact absurd (h.2.1 'n' (by decide)) (by decide)

/-- A number that is not negative is read behind zeros as it was written. -/
theorem stoi_zeros_toText (k : ℕ) (n : ℕ) : stoi (List.replicate k '0' ++ toText n) = int32 n := by
  have hdigits : ∀ c ∈ List.replicate k '0' ++ toText n, c.isDigit = true := by
    intro c hc
    rcases List.mem_append.mp hc with hc | hc
    · obtain ⟨-, rfl⟩ := List.mem_replicate.mp hc
      rfl
    · exact toText_digits hc
  have hvalue : Nat.ofDigitChars 10 (List.replicate k '0' ++ toText n) 0 = n := by
    rw [Nat.ofDigitChars_append, Nat.ofDigitChars_replicate_zero, Nat.mul_zero, toText, Nat.ofDigitChars_ten_toDigits]
  have hne : List.replicate k '0' ++ toText n ≠ [] := List.append_ne_nil_of_right_ne_nil _ (toText_ne_nil n)
  rw [stoi_digits hne hdigits, hvalue]

/-- A number is read as what it was written from, behind zeros as well. -/
theorem stoi_zeros {k : ℕ} {z : ℤ} (hz : int32 z = some z) (h : Plain (List.replicate k '0' ++ intToText z)) :
    stoi (List.replicate k '0' ++ intToText z) = some z := by
  cases z with
  | ofNat n => exact (stoi_zeros_toText k n).trans hz
  | negSucc n =>
    have hminus : '-' ∈ List.replicate k '0' ++ intToText (.negSucc n) := List.mem_append_right _ List.mem_cons_self
    exact absurd (h.2.1 _ hminus) (by decide)

theorem lower_plain_ne (h : Plain value) : Tran.lower value ≠ "null".toList := by
  obtain ⟨c, cs, rfl⟩ := List.exists_cons_of_ne_nil h.1
  intro hl
  have hc : c.toLower = 'n' := (List.cons.inj hl).1
  rcases h.2.1 c List.mem_cons_self with hd | rfl
  · rw [toLower_of_isDigit hd] at hc
    subst hc
    exact absurd hd (by decide)
  · exact absurd hc (by decide)

/-- A boolean that is taken is not spelled out. -/
theorem bool_of_isValid (ht : col.type = .boolean) (h : col.isValid A value = true) :
    Tran.lower (if value = "null".toList then [] else value) ≠ "true".toList ∧
      Tran.lower (if value = "null".toList then [] else value) ≠ "false".toList := by
  split
  · exact ⟨by decide, by decide⟩
  · rw [Column.isValid, ht] at h
    split at h
    · cases h
    · split at h
      · rename_i hl
        rw [hl]
        exact ⟨by decide, by decide⟩
      · split at h
        · cases h
        · rw [Bool.or_eq_true, decide_eq_true_eq, decide_eq_true_eq] at h
          rcases h with rfl | rfl
          · exact ⟨by decide, by decide⟩
          · exact ⟨by decide, by decide⟩

/-- A number that its column takes is stored again as it is. -/
theorem take_plain (hA : Prints A) (ha : col.isAutoInc = false) (h : col.take A value = some text) (hp : Plain text)
    (hacc : col.accepts A text = true) : col.take A text = some text := by
  have hint : ∀ {v z}, stoi v = some z → int32 z = some z := fun hz => int32_eq_some.mpr ⟨stoi_range hz, rfl⟩
  have hvalid : col.isValid A text = true := (Bool.and_eq_true_iff.mp hacc).1
  -- what is printed is a number again
  have hfloat : col.type = .float → ∃ y, A.stof text = some y := by
    intro ht
    rw [Column.isValid, if_neg (lower_plain_ne hp), ht] at hvalid
    split at hvalid
    · cases hvalid
    · split at hvalid
      · cases hvalid
      · exact Option.isSome_iff_exists.mp hvalid
  have hagain : ∀ {k v x}, A.stof v = some x → text = List.replicate k '0' ++ A.fixed col.prec x → col.type = .float →
      ∃ y, A.stof text = some y ∧ A.fixed col.prec y = A.fixed col.prec x := by
    rintro k v x hx rfl ht
    obtain ⟨y, hy⟩ := hfloat ht
    exact ⟨y, hy, hA.again k _ _ _ _ hx hp hy⟩
  rw [Column.take] at h
  split at h
  · rename_i htaken
    have hbool := fun ht => bool_of_isValid (A := A) ht (Bool.and_eq_true_iff.mp htaken).1
    rw [Column.take, if_pos hacc, Column.store, if_neg (plain_ne_null hp)]
    rw [Column.store] at h
    generalize (if value = "null".toList then [] else value) = v at h hbool
    rw [Column.format, ha, if_neg (by decide)] at h ⊢
    by_cases hkey : (col.isPrimary || col.isUnique) = true
    · rw [if_pos hkey] at h ⊢
      split at h
      · rename_i ht
        obtain ⟨x, hx, hpad⟩ := Option.map_eq_some_iff.mp h
        obtain ⟨y, hy, hsame⟩ := hagain hx hpad.symm ht
        rw [hy, Option.map_some, hsame, hpad]
      · obtain ⟨z, hz, rfl⟩ := Option.map_eq_some_iff.mp h
        rw [padLeft, stoi_zeros (hint hz) hp]
        rfl
      · rfl
    · rw [if_neg hkey] at h ⊢
      split at h
      · rename_i ht
        cases hx : A.stof v with
        | none =>
          rw [hx] at h
          exact absurd (Option.some.inj h).symm hp.1
        | some x =>
          rw [hx] at h
          obtain ⟨y, hy, hsame⟩ := @hagain 0 v x hx (Option.some.inj h).symm ht
          rw [hy, Option.map_some, hsame]
          exact h
      · cases hz : stoi v with
        | none =>
          rw [hz] at h
          exact absurd (Option.some.inj h).symm hp.1
        | some z =>
          rw [hz] at h
          obtain rfl : intToText z = text := Option.some.inj h
          have := @stoi_zeros 0 z (hint hz) hp
          rw [List.replicate_zero, List.nil_append] at this
          rw [this]
          rfl
      · rename_i ht
        rw [if_neg (hbool ht).1, if_neg (hbool ht).2] at h
        exact absurd (Option.some.inj h).symm hp.1
      · rfl
  · cases h

/-! ### Rows that come back -/

theorem values_ofTexts (h : ∀ text ∈ texts, text.length < 256) : (Row.ofTexts texts).values = texts := by
  have hlen : (Row.ofTexts texts).sizes.length = texts.length := List.length_map ..
  apply List.ext_getElem
  · exact (List.length_map _).trans (List.length_range.trans hlen)
  · intro i hi' hi
    have hrange : i < (List.range (Row.ofTexts texts).sizes.length).length := by rw [List.length_range, hlen]; exact hi
    exact (List.getElem_map _).trans ((congrArg _ (List.getElem_range hrange)).trans (valueAt_ofTexts h hi))

theorem sum_mod_le (ls : List Text) : (ls.map fun text => text.length % 256).sum ≤ ls.flatten.length := by
  rw [List.length_flatten]
  exact List.sum_le_sum fun text _ => Nat.mod_le ..

/-- Of two rows that are equal, one with short texts, the texts are equal. -/
theorem ofTexts_inj {texts' : List Text} (h : ∀ text ∈ texts, text.length < 256) (he : Row.ofTexts texts' = Row.ofTexts texts) :
    texts' = texts := by
  obtain ⟨hsizes, hdata⟩ := Row.mk.inj he
  clear he
  induction texts generalizing texts' with
  | nil => exact List.map_eq_nil_iff.mp hsizes
  | cons text texts ih =>
    cases texts' with
    | nil => cases hsizes
    | cons text' texts' =>
      obtain ⟨hsize, hrests⟩ := List.cons.inj hsizes
      obtain ⟨hshort, hshorts⟩ := List.forall_mem_cons.mp h
      rw [List.flatten_cons, List.flatten_cons] at hdata
      replace hsize : text'.length % 256 = text.length := hsize.trans (Nat.mod_eq_of_lt hshort)
      have hlen : text'.length = text.length := by
        have htotal := congrArg List.length hdata
        rw [List.length_append, List.length_append] at htotal
        have hmod := Nat.mod_le text'.length 256
        have hrest : (texts.map fun text => text.length % 256).sum = texts.flatten.length := by
          rw [List.length_flatten]
          exact congrArg List.sum (List.map_congr_left fun t ht => Nat.mod_eq_of_lt (hshorts t ht))
        have hle := sum_mod_le texts'
        rw [hrests, hrest] at hle
        omega
      obtain ⟨rfl, hflat⟩ := List.append_inj hdata hlen
      rw [ih hshorts hrests hflat]

/-- If the weights of one list are not greater than those of another one, but their sum is not less, none is less. -/
theorem weights_eq {α β : Type} {R : α → β → Prop} {f : α → ℕ} {g : β → ℕ} {l : List α} {m : List β} (h : List.Forall₂ R l m)
    (hle : ∀ a ∈ l, ∀ b ∈ m, R a b → g b ≤ f a) (hs : (l.map f).sum ≤ (m.map g).sum) : ∀ a ∈ l, ∃ b ∈ m, R a b ∧ f a ≤ g b := by
  have hsum : ∀ {l m}, List.Forall₂ R l m → (∀ a ∈ l, ∀ b ∈ m, R a b → g b ≤ f a) → (m.map g).sum ≤ (l.map f).sum := by
    intro l m h hle
    induction h with
    | nil => exact le_rfl
    | @cons a b l m hab _ ih =>
      rw [List.map_cons, List.map_cons, List.sum_cons, List.sum_cons]
      exact Nat.add_le_add (hle a List.mem_cons_self b List.mem_cons_self hab)
        (ih fun a ha b hb => hle a (List.mem_cons_of_mem _ ha) b (List.mem_cons_of_mem _ hb))
  induction h with
  | nil => exact fun a ha => absurd ha List.not_mem_nil
  | @cons a b l m hab hrest ih =>
    have hhead := hle a List.mem_cons_self b List.mem_cons_self hab
    have hrests : ∀ a ∈ l, ∀ b ∈ m, R a b → g b ≤ f a := fun a ha b hb => hle a (List.mem_cons_of_mem _ ha) b (List.mem_cons_of_mem _ hb)
    have htail := hsum hrest hrests
    rw [List.map_cons, List.map_cons, List.sum_cons, List.sum_cons] at hs
    refine List.forall_mem_cons.mpr ⟨⟨b, List.mem_cons_self, hab, by omega⟩, fun a' ha' => ?_⟩
    obtain ⟨b', hb', hr, hw⟩ := ih hrests (by omega) a' ha'
    exact ⟨b', List.mem_cons_of_mem _ hb', hr, hw⟩

/-- The items have the values. -/
theorem map_text_cells {r : Row} (h : r.values.length = cols.length) : (cells cols r).map Cell.text = r.values := by
  have hright : ∀ {cols : List Column} {values : List Text}, values.length = cols.length →
      (List.zipWith (fun col value => (⟨col.quotes, value⟩ : Cell)) cols values).map Cell.text = values := by
    intro cols values h
    induction cols generalizing values with
    | nil => rw [List.length_eq_zero_iff.mp h]; rfl
    | cons col cols ih =>
      cases values with
      | nil => cases h
      | cons value values =>
        rw [List.zipWith_cons_cons, List.map_cons, ih (Nat.succ.inj h)]
  exact hright h

theorem Live.stored {r : Row} (h : Live A cols r) : ∃ values, storeAll A cols values = some r.values ∧ r = Row.ofTexts r.values ∧
    r.values.length = cols.length ∧ (∀ text ∈ r.values, text.length < 256) ∧ r.values.flatten.length ≤ capacity cols := by
  obtain ⟨values, texts, hst, hcap, hshort, rfl⟩ := h
  rw [values_ofTexts hshort]
  exact ⟨values, hst, rfl, length_storeAll hst, hshort, hcap⟩

/-- Values that are stored as they are. -/
theorem storeAll_returns (hA : Prints A) (hauto : ∀ col ∈ cols, col.isAutoInc = false) (h : storeAll A cols values = some texts)
    (hr : List.Forall₂ (Returns A) cols texts) : storeAll A cols texts = some texts := by
  induction cols generalizing values texts with
  | nil =>
    cases hr
    rfl
  | cons col cols ih =>
    cases values with
    | nil => cases h
    | cons value values =>
      obtain ⟨text, ht, h'⟩ := Option.bind_eq_some_iff.mp h
      obtain ⟨rest, hrest, hcons⟩ := Option.bind_eq_some_iff.mp h'
      obtain rfl := Option.some.inj hcons
      obtain ⟨hret, hrets⟩ := List.forall₂_cons.mp hr
      have htake : col.take A text = some text := by
        cases hq : col.quotes with
        | true => exact take_quoted hq ht
        | false => exact take_plain hA (hauto col List.mem_cons_self) ht (hret hq).1 (hret hq).2
      rw [storeAll, htake, Option.bind_eq_bind, Option.bind_some, ih (fun c hc => hauto c (List.mem_cons_of_mem _ hc)) hrest hrets]
      rfl

/-- Values that are taken and, where they are not quoted, numbers. -/
theorem returns_of_storeAll (hlen : values.length = cols.length) (h : storeAll A cols values = some texts)
    (hp : ∀ cell ∈ bareCells (List.zipWith (fun col value => ⟨col.quotes, value⟩) cols values), Plain cell.text) :
    List.Forall₂ (Returns A) cols values := by
  induction cols generalizing values texts with
  | nil =>
    obtain rfl := List.length_eq_zero_iff.mp hlen
    exact .nil
  | cons col cols ih =>
    cases values with
    | nil => cases h
    | cons value values =>
      obtain ⟨text, ht, h'⟩ := Option.bind_eq_some_iff.mp h
      obtain ⟨rest, hrest, -⟩ := Option.bind_eq_some_iff.mp h'
      have hsub : bareCells (List.zipWith (fun col value => ⟨col.quotes, value⟩) cols values) ⊆
          bareCells (List.zipWith (fun col value => ⟨col.quotes, value⟩) (col :: cols) (value :: values)) :=
        ((List.sublist_cons_self _ _).filter _).subset
      refine .cons (fun hq => ⟨?_, ?_⟩) (ih (Nat.succ.inj hlen) hrest fun cell hc => hp cell (hsub hc))
      · apply hp ⟨false, value⟩
        rw [List.zipWith_cons_cons, hq, bareCells_bare]
        exact List.mem_cons_self
      · rw [Column.take] at ht
        split at ht
        · assumption
        · cases ht

/-- The lines of the file, with the rows that they are written for. -/
theorem outfile_lines {keyList : List Column} {rows : List Row} (hclean : ∀ r ∈ rows, ∀ value ∈ r.values, Clean value)
    (hlen : ∀ r ∈ rows, r.values.length = cols.length) :
    ∃ rows' : List Row, rows'.Perm rows ∧
      getLines [] (outfile A get cols keyList rows) = rows'.map fun r => rowText true keyList.length (cells cols r) := by
  have hperm : (lines A get true keyList (rows.map (resultRow cols keyList))).Perm
      (rows.map fun r => rowText true keyList.length (cells cols r)) := by
    have := @lines_perm A get true keyList (rows.map (resultRow cols keyList))
    rwa [List.map_map] at this
  have hcomp : Relation.Comp (fun l m => l = m.map fun r => rowText true keyList.length (cells cols r)) List.Perm
      (lines A get true keyList (rows.map (resultRow cols keyList))) rows := by
    rw [List.eq_map_comp_perm]
    exact hperm
  obtain ⟨rows', hlines, hrows'⟩ := hcomp
  refine ⟨rows', hrows', ?_⟩
  rw [outfile, hlines]
  apply getLines_flatMap
  intro line hline
  obtain ⟨r, hr, rfl⟩ := List.mem_map.mp hline
  have hr' := hrows'.subset hr
  refine newline_rowText (fun cell hcell => hclean r hr' _ ?_) _
  rw [← map_text_cells (hlen r hr')]
  exact List.mem_map_of_mem hcell

/-- What splits in a row that is made of a line of another row. -/
theorem countP_loaded {r s : Row} {i : ℕ} (hA : Prints A) (hauto : ∀ col ∈ cols, col.isAutoInc = false)
    (hlen : r.values.length = cols.length) (hclean : ∀ cell ∈ cells cols r, Clean cell.text)
    (hget : getData cols.length (rowText true i (cells cols r)) = some values) (hmake : makeRow A cols values = some s)
    (hs : Live A cols s) :
    s.values.countP splits + (bareCells (cells cols r)).countP (fun cell => splits cell.text) ≤ r.values.countP splits := by
  obtain ⟨texts, hst, -, hrow⟩ := makeRow_iff.mp hmake
  obtain ⟨-, -, hrow', -, hshort, -⟩ := hs.stored
  have htexts : texts = s.values := ofTexts_inj hshort (hrow.symm.trans hrow')
  have hle := countP_storeAll hA hauto hst
  have hcount := (getData_pieces hclean hget).countP
  have hvalues : r.values.countP splits = (cells cols r).countP fun cell => splits cell.text := by
    rw [← map_text_cells hlen, List.countP_map]
    rfl
  rw [hvalues, ← hcount, ← htexts]
  exact Nat.add_le_add_right hle _

/-- If as much splits, the values are those of the other row. -/
theorem returns_of_loaded {r s : Row} {i : ℕ} (hA : Prints A) (hauto : ∀ col ∈ cols, col.isAutoInc = false)
    (hlen : r.values.length = cols.length) (hclean : ∀ cell ∈ cells cols r, Clean cell.text)
    (hget : getData cols.length (rowText true i (cells cols r)) = some values) (hmake : makeRow A cols values = some s)
    (hs : Live A cols s) (hw : r.values.countP splits ≤ s.values.countP splits) : List.Forall₂ (Returns A) cols r.values := by
  have hcount := countP_loaded hA hauto hlen hclean hget hmake hs
  have hnone : (bareCells (cells cols r)).countP (fun cell => splits cell.text) = 0 := by omega
  have hsplits : ∀ cell ∈ bareCells (cells cols r), splits cell.text = false := fun cell hc =>
    Bool.eq_false_iff.mpr (List.countP_eq_zero.mp hnone cell hc)
  have hcells : (cells cols r).length = cols.length := by rw [cells, List.length_zipWith, hlen, min_self]
  obtain ⟨hvalues, hplain⟩ := ((getData_pieces hclean hget).eq_texts hsplits).2 ((length_getData hget).trans hcells.symm)
  rw [map_text_cells hlen] at hvalues
  obtain ⟨texts, hst, -, -⟩ := makeRow_iff.mp hmake
  exact returns_of_storeAll hlen (hvalues ▸ hst) hplain

/-- The line of a row whose values return. -/
theorem loads_of_returns {r : Row} (hA : Prints A) (hauto : ∀ col ∈ cols, col.isAutoInc = false) (hr : Live A cols r)
    (hclean : ∀ cell ∈ cells cols r, Clean cell.text) (hret : List.Forall₂ (Returns A) cols r.values) (i : ℕ) :
    Loads A cols (getData cols.length (rowText true i (cells cols r))) r := by
  obtain ⟨values, hst, hrow, hlen, -, hcap⟩ := hr.stored
  have hplain : ∀ {cols : List Column} {values : List Text}, List.Forall₂ (Returns A) cols values →
      ∀ cell ∈ List.zipWith (fun col value => (⟨col.quotes, value⟩ : Cell)) cols values, cell.quote = false → Plain cell.text := by
    intro cols values h
    induction h with
    | nil => exact fun cell hc => absurd hc List.not_mem_nil
    | cons hab _ ih =>
      rw [List.zipWith_cons_cons]
      exact List.forall_mem_cons.mpr ⟨fun hq => (hab hq).1, ih⟩
  have hcells : (cells cols r).length = cols.length := by rw [cells, List.length_zipWith, hlen, min_self]
  refine ⟨r.values, ?_, hlen, makeRow_iff.mpr ⟨r.values, storeAll_returns hA hauto hst hret, hcap, hrow⟩⟩
  have hread := @getData_rowText (cells cols r) (fun cell hc => ?_) i
  · rwa [hcells, map_text_cells hlen] at hread
  · split
    · exact hclean cell hc
    · rename_i hq
      exact hplain hret cell hc (Bool.not_eq_true _ ▸ hq)

/-- The rows that are written into a file are loaded into an empty table of the same schema if and only if
their values, where they are not quoted, are numbers that the columns take, and no two rows have the same
key in a unique index. -/
theorem outfile_loads_iff {A : Arith} {get : Text → A.F} {t : Table} (hA : Prints A) (ht : t.Tidy) (hempty : t.rows = [])
    (hfgn : t.foreignList = []) (hauto : ∀ col ∈ t.columns, col.isAutoInc = false) {rows : List Row} (hlive : ∀ r ∈ rows, Live A t.columns r)
    (hclean : ∀ r ∈ rows, ∀ value ∈ r.values, Clean value) (db : Db) (keyList : List Column) :
    ((after (loadInfile A db (outfile A get t.columns keyList rows) t)).rows.map Prod.snd).Perm rows ↔
      (∀ r ∈ rows, List.Forall₂ (Returns A) t.columns r.values) ∧
        ∀ ndx ∈ t.indexList, ndx.isUnique = true → (rows.map (t.key ndx)).Nodup := by
  have hlen : ∀ r ∈ rows, r.values.length = t.columns.length := fun r hr => by
    obtain ⟨-, -, -, hlen, -, -⟩ := (hlive r hr).stored
    exact hlen
  obtain ⟨rows', hrows', hlines⟩ := @outfile_lines A get _ keyList _ hclean hlen
  have hload : loadInfile A db (outfile A get t.columns keyList rows) t =
      loadLines A db (rows'.map fun r => getData t.columns.length (rowText true keyList.length (cells t.columns r)))
        (Row.empty t.columns.length) t := by
    have hall : (t.foreignList.all fun fgn => (parent db t fgn).isSome) = true := by rw [hfgn]; rfl
    rw [loadInfile, get_bind, loadData, get_bind, if_pos hall, hlines, List.map_map]
    rfl
  have hcells : ∀ r ∈ rows, (cells t.columns r).length = t.columns.length := fun r hr => by
    rw [cells, List.length_zipWith, hlen r hr, min_self]
  have hcleanCells : ∀ r ∈ rows, ∀ cell ∈ cells t.columns r, Clean cell.text := fun r hr cell hcell => by
    apply hclean r hr
    rw [← map_text_cells (hlen r hr)]
    exact List.mem_map_of_mem hcell
  rw [hload]
  constructor
  · intro hperm
    have hunique : UniqueKeys t := fun ndx _ _ => by rw [hempty]; exact List.nodup_nil
    have hcount := hperm.length_eq
    rw [List.length_map, ← hrows'.length_eq] at hcount
    obtain ⟨rs, hrs, hloaded, hkeys⟩ := loadLines_all ht hunique hfgn hauto rfl List.length_replicate (by
      rw [hempty, List.length_nil, Nat.zero_add, List.length_map]
      exact hcount.ge)
    rw [hempty, List.map_nil, List.nil_append] at hloaded hkeys
    rw [hloaded] at hperm
    refine ⟨fun r hr => ?_, fun ndx hm hu => (hperm.map _).nodup_iff.mp (hkeys ndx hm hu)⟩
    -- no row splits more often than the row whose line it is made of, and together they split as often
    have hsum : (rows'.map fun r => r.values.countP splits).sum ≤ (rs.map fun r => r.values.countP splits).sum :=
      ((hrows'.trans hperm.symm).map _).sum_eq.le
    obtain ⟨s, hs, ⟨values, hget, -, hmake⟩, hw⟩ := weights_eq (List.forall₂_map_left_iff.mp hrs) (fun r hr' s hs hrs => by
        obtain ⟨values, hget, -, hmake⟩ := hrs
        have hr := hrows'.subset hr'
        have := countP_loaded hA hauto (hlen r hr) (hcleanCells r hr) hget hmake (hlive s (hperm.subset hs))
        omega) hsum r (hrows'.symm.subset hr)
    exact returns_of_loaded hA hauto (hlen r hr) (hcleanCells r hr) hget hmake (hlive s (hperm.subset hs)) hw
  · rintro ⟨hret, hkeys⟩
    have hls : List.Forall₂ (Loads A t.columns)
        (rows'.map fun r => getData t.columns.length (rowText true keyList.length (cells t.columns r))) rows' := by
      refine List.forall₂_map_left_iff.mpr (List.forall₂_same.mpr fun r hr' => ?_)
      have hr := hrows'.subset hr'
      exact loads_of_returns hA hauto (hlive r hr) (hcleanCells r hr) (hret r hr) _
    rw [loadLines_rows ht hfgn hauto rfl List.length_replicate hls, hempty]
    · exact hrows'
    · intro ndx hm hu
      rw [hempty, List.map_nil, List.nil_append]
      exact (hrows'.map _).nodup_iff.mpr (hkeys ndx hm hu)

/-! ### Whole numbers and names -/

theorem prints_whole : Prints wholeNumbers where
  again k prec value x y hx hp hy := by
    have hz : int32 x = some x := int32_eq_some.mpr ⟨stoi_range hx, rfl⟩
    obtain rfl := Option.some.inj (hy.symm.trans (stoi_zeros hz hp))
    rfl
  inOne _ x := splits_intToText x

/-- An empty table. -/
def people : Table :=
  { name := ("db".toList, "people".toList)
    columns := idAndName
    indexList := []
    foreignList := []
    rows := []
    next := 0 }

theorem people_tidy : people.Tidy where
  columns := by decide
  names := by decide
  places := List.nodup_nil
  fresh p hp := absurd hp List.not_mem_nil
  elements ndx hm := absurd hm List.not_mem_nil

/-- A row of the table. -/
def person (id name : String) : Row := Row.ofTexts [id.toList, name.toList]

/-- The rows `5, ann` and `12, bob`. -/
theorem outfile_loads_two : ((after (loadInfile wholeNumbers (fun _ => none)
    (outfile wholeNumbers readWhole idAndName [] [person "5" "ann", person "12" "bob"]) people)).rows.map Prod.snd).Perm
      [person "5" "ann", person "12" "bob"] := by
  have hrows : ∀ r ∈ [person "5" "ann", person "12" "bob"], r = person "5" "ann" ∨ r = person "12" "bob" := by simp
  refine (outfile_loads_iff prints_whole people_tidy rfl rfl (by decide) (fun r hr => ?_) (fun r hr => ?_) _ []).mpr ⟨fun r hr => ?_, ?_⟩
  · rcases hrows r hr with rfl | rfl
    · exact ⟨["5".toList, "ann".toList], _, rfl, by decide, by decide, rfl⟩
    · exact ⟨["12".toList, "bob".toList], _, rfl, by decide, by decide, rfl⟩
  · rcases hrows r hr with rfl | rfl
    · decide
    · decide
  · rcases hrows r hr with rfl | rfl
    · exact .cons (fun _ => ⟨by decide, by decide⟩) (.cons (fun hq => absurd hq (by decide)) .nil)
    · exact .cons (fun _ => ⟨by decide, by decide⟩) (.cons (fun hq => absurd hq (by decide)) .nil)
  · exact fun ndx hm => absurd hm List.not_mem_nil

/-- The row `-5, ann` is lost: its line is refused. -/
theorem outfile_loses_negative : ¬∀ (A : Arith) (get : Text → A.F) (t : Table) (rows : List Row) (db : Db) (keyList : List Column),
    Prints A → t.Tidy → t.rows = [] → t.foreignList = [] → (∀ col ∈ t.columns, col.isAutoInc = false) → (∀ r ∈ rows, Live A t.columns r) →
      (∀ r ∈ rows, ∀ value ∈ r.values, Clean value) →
        ((after (loadInfile A db (outfile A get t.columns keyList rows) t)).rows.map Prod.snd).Perm rows := by
  intro h
  have hperm := h wholeNumbers readWhole people [person "-5" "ann"] (fun _ => none) [] prints_whole people_tidy rfl rfl (by decide)
    (fun r hr => by
      rw [List.mem_singleton.mp hr]
      exact ⟨["-5".toList, "ann".toList], _, rfl, by decide, by decide, rfl⟩)
    (fun r hr => by
      rw [List.mem_singleton.mp hr]
      decide)
  have hnone : (after (loadInfile wholeNumbers (fun _ => none) (outfile wholeNumbers readWhole people.columns [] [person "-5" "ann"])
      people)).rows = [] := by decide +kernel
  rw [hnone] at hperm
  exact absurd hperm.length_eq (by decide)

end RedB.Dml
