import RedB.Ddl.Statements
import RedB.Rows.Pages

/-!
# What a scan visits

`tree::fill_index` and the statements without an index go over a table from `begin()` to `end()`. An
iterator goes on behind the last row of a block with the first row of the next one, and takes there to be
one. If all rows of that block have been removed, the iterator is at position zero, in the header.

So a table is scanned row by row, in the order in which the rows have been put there, if and only if no
block but the last one has lost all its rows (`rows_scanned_iff`).
-/

namespace RedB.Rows

open Runs Buffer Ddl Rings Links

/-! ### Scans -/

/-- The places that `for (; it != end(); ++it)` visits. -/
def scanFrom : ℕ → RowIterator → TableM (List RowIterator)
  | 0, _ => throw (.tree .fuel)
  | fuel + 1, it => do
    let e ← endRows
    if it = e then pure []
    else do
      let it' ← it.next
      let l ← scanFrom fuel it'
      pure (it :: l)

/-- The scan of a table. -/
def scan (fuel : ℕ) : TableM (List RowIterator) := do
  let it ← beginRows
  scanFrom fuel it

/-! ### Fields -/

variable {t t' : Ddl.Table} {o : ℤ} {blk : Block} {fs : List ℤ} {lim : ℤ} {p : ℕ} {x y : ℕ × RowBytes}
  {pages A B : List Page} {rows C D : List (ℕ × RowBytes)}

theorem slice_header {n : ℕ} (h : p + n ≤ 24) : slice (raw blk) p n = (((blk.header.drop p).take n)).map Fin.val := by
  rw [List.map_take, List.map_drop, ← raw_header]
  refine List.ext_getElem (by simp [slice]; omega) fun i hi hi' => ?_
  simp [slice]

theorem field_rowHead (hrows : HoldsRows blk rows) (t : Ddl.Table) : field blk ROW_HEAD_POS t = .ok ((rows.map Prod.fst).headD 0 : ℤ) t := by
  have hmem : (rows.map Prod.fst).headD 0 ∈ 0 :: rows.map Prod.fst := by cases rows <;> simp
  have hlt := hrows.position_lt hmem
  have hslice : slice (raw blk) 20 2 = int16Bytes blk.rowHead := by
    rw [slice_header (by decide), ← map_beBytes_two]
    simp [Block.header, beBytes, List.range_succ]
  rw [field_run blk (p := 20) (by decide) (show ROW_HEAD_POS = ((20 : ℕ) : ℤ) from rfl), hslice, hrows.head, toInt16_int16Bytes (Int.natCast_nonneg _) (by omega)]

theorem field_rowTail (hrows : HoldsRows blk rows) (t : Ddl.Table) : field blk ROW_TAIL_POS t = .ok ((rows.map Prod.fst).getLastD 0 : ℤ) t := by
  have hlt := hrows.position_lt List.getLastD_mem_cons
  have hslice : slice (raw blk) 22 2 = int16Bytes blk.rowTail := by
    rw [slice_header (by decide), ← map_beBytes_two]
    simp [Block.header, beBytes, List.range_succ]
  rw [field_run blk (p := 22) (by decide) (show ROW_TAIL_POS = ((22 : ℕ) : ℤ) from rfl), hslice, hrows.tail, toInt16_int16Bytes (Int.natCast_nonneg _) (by omega)]

/-- The size of a row. -/
theorem field_size (hrows : HoldsRows blk rows) (hx : x ∈ rows) (t : Ddl.Table) :
    field blk (x.1 + rowSizePos) t = .ok (x.2.bytes.length : ℤ) t := by
  have hroom := hrows.position_room (List.mem_cons_of_mem _ (List.mem_map_of_mem hx))
  have hsix := x.2.six
  have hslice : slice (raw blk) x.1 2 = x.2.bytes.take 2 := by
    refine List.ext_getElem (by simp [slice]; omega) fun i hi hi' => ?_
    have hi2 : i < 2 := by simpa [slice] using hi
    rw [List.getElem_take, ← hrows.stores x hx i (by omega) (.inl hi2)]
    simp [slice]
  rw [field_run blk (p := x.1) (by omega) (by simp [rowSizePos]), hslice, x.2.size]

/-- A block begins with two zeros. -/
theorem field_zero (hrows : HoldsRows blk rows) (t : Ddl.Table) : field blk (0 + rowSizePos) t = .ok 0 t := by
  have hroom := hrows.room
  have hslice : slice (raw blk) 0 2 = [0, 0] := by
    rw [slice_header (by decide)]
    simp [Block.header, beBytes, List.range_succ]
    omega
  rw [field_run blk (p := 0) (by decide) (show 0 + rowSizePos = ((0 : ℕ) : ℤ) from rfl), hslice]
  rfl

/-- The end of the last row. -/
def endOf (rows : List (ℕ × RowBytes)) : ℕ := (rows.getLast?.map fun x => x.1 + x.2.bytes.length).getD 0

theorem endOfRows_run (hrows : HoldsRows blk rows) (t : Ddl.Table) : endOfRows blk t = .ok (endOf rows : ℤ) t := by
  rw [endOfRows, bind_run (field_rowTail hrows t)]
  rcases List.eq_nil_or_concat rows with rfl | ⟨C, x, rfl⟩
  · exact (bind_run (field_zero hrows t)).trans rfl
  · rw [List.concat_eq_append] at *
    have hlast : ((C ++ [x]).map Prod.fst).getLastD 0 = x.1 := by simp [List.getLastD_eq_getLast?]
    rw [hlast, bind_run (field_size hrows (by simp) t)]
    simp [endOf, pure, EStateM.pure]

/-- All rows are before the end. -/
theorem HoldsRows.lt_end (h : HoldsRows blk rows) (hx : x ∈ rows) : x.1 < endOf rows := by
  rcases List.eq_nil_or_concat rows with rfl | ⟨C, y, rfl⟩
  · exact nomatch hx
  · rw [List.concat_eq_append] at *
    have hend : endOf (C ++ [y]) = y.1 + y.2.bytes.length := by simp [endOf]
    have hsix := x.2.six
    have hsix' := y.2.six
    rcases List.mem_append.mp hx with hx | hx
    · have := (List.pairwise_append.mp h.order).2.2 x hx y (by simp)
      omega
    · obtain rfl := List.mem_singleton.mp hx
      omega

/-! ### Iterators -/

/-- `tree::end` -/
def endIterator (pages : List Page) : RowIterator :=
  match pages.getLast? with
  | none => ⟨-1, invalidSiblingRef⟩
  | some pg => ⟨endOf pg.2, pg.1⟩

/-- An iterator at the first of some blocks that are still to be visited. -/
def cursor (e : RowIterator) : List Page → RowIterator
  | [] => e
  | (o, rows) :: _ => ⟨(rows.map Prod.fst).headD 0, o⟩

/-- What is still to be visited behind a row. -/
def behind (o : ℤ) (rows : List (ℕ × RowBytes)) (B : List Page) : List Page := if rows = [] then B else (o, rows) :: B

theorem Pages.block (h : Pages t (A ++ (o, rows) :: B)) :
    ∃ blk, t.cache o = some blk ∧ HoldsRows blk rows ∧ onTree (dataBlock o) t = .ok blk t := by
  have hmem : (o, rows) ∈ A ++ (o, rows) :: B := by simp
  obtain ⟨blk, hblk, hrows⟩ := h.holds _ hmem
  exact ⟨blk, hblk, hrows, dataBlock_run h.names (h.aligned _ hmem) ((h.data o).mpr (by simp)) hblk⟩

/-- The block behind a block. -/
theorem Pages.next (h : Pages t (A ++ (o, rows) :: B)) (hblk : t.cache o = some blk) :
    (if blk.next = invalidSiblingRef then none else some blk.next) = (B.map Prod.fst).head? := by
  have hlinked := h.linked
  rw [List.map_append, List.map_cons] at hlinked
  rw [← hlinked.next, nextOf, hblk, Option.bind_some]

theorem Pages.beginRows_run (h : Pages t pages) : beginRows t = .ok (cursor (endIterator pages) pages) t := by
  have hroot := h.root
  rw [beginRows, get_bind]
  cases pages with
  | nil =>
    have hneg : t.schema.header.dataRoot < 0 := by
      by_contra hneg
      simp [ofOffset, hneg] at hroot
    rw [if_pos hneg]
    rfl
  | cons pg pages =>
    obtain ⟨o, rows⟩ := pg
    have hneg : ¬t.schema.header.dataRoot < 0 := fun hneg => by simp [ofOffset, hneg] at hroot
    obtain rfl : t.schema.header.dataRoot = o := by simpa [ofOffset, hneg] using hroot.symm
    obtain ⟨blk, -, hrows, hrun⟩ := Pages.block (A := []) h
    rw [if_neg hneg, bind_run hrun, bind_run (field_rowHead hrows t)]
    rfl

theorem Pages.endRows_run (h : Pages t pages) : endRows t = .ok (endIterator pages) t := by
  have hroot := h.root
  have hlast := h.last
  rw [endRows, get_bind]
  rcases List.eq_nil_or_concat pages with rfl | ⟨A, ⟨o, rows⟩, rfl⟩
  · have hneg : t.schema.header.dataRoot < 0 := by
      by_contra hneg
      simp [ofOffset, hneg] at hroot
    rw [if_pos hneg]
    rfl
  · rw [List.concat_eq_append] at *
    have hneg : ¬t.schema.header.dataRoot < 0 := fun hneg => by simp [ofOffset, hneg] at hroot
    rw [List.map_append, List.map_singleton, List.getLast?_concat] at hlast
    obtain ⟨-, ho⟩ := ofOffset_eq_some.mp hlast.symm
    obtain ⟨blk, -, hrows, hrun⟩ := h.block
    rw [if_neg hneg, ho, bind_run hrun, bind_run (endOfRows_run hrows t)]
    simp [endIterator, pure, EStateM.pure]

/-- The iterator goes on from a row. -/
theorem Pages.step (h : Pages t (A ++ (o, C ++ y :: D) :: B)) :
    RowIterator.next ⟨y.1, o⟩ t = .ok (cursor (endIterator (A ++ (o, C ++ y :: D) :: B)) (behind o D B)) t := by
  obtain ⟨blk, hblk, hrows, hrun⟩ := h.block
  have hy := (hrows.bounds y (by simp)).1
  have hroom := hrows.position_room (show y.1 ∈ 0 :: (C ++ y :: D).map Prod.fst by simp)
  have hfield : field blk (y.1 + rowNextPos) t = .ok ((D.map Prod.fst).headD 0 : ℤ) t := by
    rw [field_run blk (p := y.1 + 4) (by omega) (by rw [rowNextPos]; push_cast; rfl), ← hrows.links.2, link, if_neg (by omega)]
    rfl
  have hnext := h.next hblk
  rw [RowIterator.next, bind_run hrun]
  dsimp only
  rw [bind_run hfield]
  cases D with
  | cons z D =>
    have hz := (hrows.bounds z (by simp)).1
    rw [if_pos (show (((z :: D).map Prod.fst).headD 0 : ℤ) ≠ 0 by rw [List.map_cons, List.headD_cons]; omega)]
    rfl
  | nil =>
    rw [if_neg (by simp)]
    cases B with
    | nil =>
      have hinv : blk.next = invalidSiblingRef := by
        by_contra hinv
        simp [if_neg hinv] at hnext
      rw [if_pos hinv, bind_run (endOfRows_run hrows t)]
      simp [endIterator, behind, cursor, pure, EStateM.pure]
    | cons pg B =>
      obtain ⟨o', rows'⟩ := pg
      have hinv : blk.next ≠ invalidSiblingRef := fun hinv => by simp [hinv] at hnext
      have ho' : blk.next = o' := by simpa [if_neg hinv] using hnext
      have h' : Pages t ((A ++ [(o, C ++ [y])]) ++ (o', rows') :: B) := by simpa using h
      obtain ⟨blk', -, hrows', hrun'⟩ := h'.block
      rw [if_neg hinv, ho', bind_run hrun', bind_run (field_rowHead hrows' t)]
      rfl

/-! ### What is visited -/

theorem Pages.scan_end (h : Pages t pages) (fuel : ℕ) : scanFrom (fuel + 1) (endIterator pages) t = .ok [] t := by
  rw [scanFrom, bind_run h.endRows_run, if_pos rfl]
  rfl

/-- What is visited from a place on that is not the end. -/
theorem Pages.scan_cons (h : Pages t pages) {it : RowIterator} (hne : it ≠ endIterator pages) {fuel : ℕ} {l : List RowIterator}
    (hrun : scanFrom fuel it t = .ok l t') : ∃ fuel' it' t₁ l', fuel = fuel' + 1 ∧ it.next t = .ok it' t₁ ∧ scanFrom fuel' it' t₁ = .ok l' t' ∧
      l = it :: l' := by
  cases fuel with
  | zero =>
    rw [scanFrom] at hrun
    exact (throw_ok.mp hrun).elim
  | succ fuel =>
    rw [scanFrom, bind_run h.endRows_run, if_neg hne] at hrun
    obtain ⟨it', t₁, hnext, hrest⟩ := bind_ok.mp hrun
    obtain ⟨l', t₂, hscan, hpure⟩ := bind_ok.mp hrest
    obtain ⟨rfl, rfl⟩ := pure_ok.mp hpure
    exact ⟨fuel, it', t₁, l', rfl, hnext, hscan, rfl⟩

/-- The end is in the last block. -/
theorem endIterator_offset (hB : B ≠ []) : (endIterator (A ++ B)).offset ∈ B.map Prod.fst := by
  rcases List.eq_nil_or_concat B with rfl | ⟨B, pg, rfl⟩
  · exact absurd rfl hB
  · simp [endIterator, ← List.append_assoc]

theorem Pages.offset_ne (h : Pages t (A ++ (o, rows) :: B)) (hB : B ≠ []) (p : ℤ) : (⟨p, o⟩ : RowIterator) ≠ endIterator (A ++ (o, rows) :: B) := by
  intro e
  have hmem := @endIterator_offset (A ++ [(o, rows)]) B hB
  rw [List.append_assoc, List.singleton_append, ← e] at hmem
  have hnd := h.nodup
  rw [List.map_append, List.map_cons, List.nodup_append, List.nodup_cons] at hnd
  exact hnd.2.1.1 hmem

/-- A row is not the end. -/
theorem Pages.row_ne (h : Pages t (A ++ (o, C ++ y :: D) :: B)) : (⟨y.1, o⟩ : RowIterator) ≠ endIterator (A ++ (o, C ++ y :: D) :: B) := by
  by_cases hB : B = []
  · subst hB
    obtain ⟨blk, -, hrows, -⟩ := h.block
    have hlt := hrows.lt_end (show y ∈ C ++ y :: D by simp)
    have hend : endIterator (A ++ [(o, C ++ y :: D)]) = ⟨endOf (C ++ y :: D), o⟩ := by simp [endIterator]
    rw [hend]
    intro e
    have := congrArg RowIterator.position e
    dsimp only at this
    omega
  · exact h.offset_ne hB y.1

theorem Pages.position (h : Pages t pages) {x : RowIterator × RowBytes} (hx : x ∈ live pages) : 24 ≤ x.1.position := by
  obtain ⟨pg, hpg, hx⟩ := List.mem_flatMap.mp hx
  obtain ⟨y, hy, rfl⟩ := List.mem_map.mp hx
  obtain ⟨blk, -, hrows⟩ := h.holds pg hpg
  have := (hrows.bounds y hy).1
  dsimp only
  omega

/-- Some of the last rows, with the blocks that have them. -/
def Rest (pages P : List Page) : Prop :=
  P = [] ∨ ∃ A o C D B, pages = A ++ (o, C ++ D) :: B ∧ P = (o, D) :: B ∧ (D = [] → C = [])

theorem rest_self (pages : List Page) : Rest pages pages := by
  cases pages with
  | nil => exact .inl rfl
  | cons pg pages => exact .inr ⟨[], pg.1, [], pg.2, pages, rfl, rfl, fun _ => rfl⟩

theorem rest_behind (A : List Page) (o : ℤ) (C : List (ℕ × RowBytes)) (y : ℕ × RowBytes) (D : List (ℕ × RowBytes)) (B : List Page) :
    Rest (A ++ (o, C ++ y :: D) :: B) (behind o D B) := by
  by_cases hD : D = []
  · rw [behind, if_pos hD]
    cases B with
    | nil => exact .inl rfl
    | cons pg B => exact .inr ⟨A ++ [(o, C ++ y :: D)], pg.1, [], pg.2, B, by simp, rfl, fun _ => rfl⟩
  · rw [behind, if_neg hD]
    exact .inr ⟨A, o, C ++ [y], D, B, by simp, rfl, fun e => absurd e hD⟩

theorem live_behind (o : ℤ) (y : ℕ × RowBytes) (D : List (ℕ × RowBytes)) (B : List Page) :
    live ((o, y :: D) :: B) = (⟨y.1, o⟩, y.2) :: live (behind o D B) := by
  by_cases hD : D = []
  · simp [live, behind, hD]
  · simp [live, behind, hD]

theorem dropLast_behind (o : ℤ) (y : ℕ × RowBytes) (D : List (ℕ × RowBytes)) (B : List Page) :
    (∀ pg ∈ ((o, y :: D) :: B).dropLast, pg.2 ≠ []) ↔ ∀ pg ∈ (behind o D B).dropLast, pg.2 ≠ [] := by
  by_cases hD : D = []
  · cases B <;> simp [behind, hD]
  · cases B <;> simp [behind, hD]

/-- From the first of the last rows on, these rows are visited if and only if no block between them is
without rows. -/
theorem Pages.scanFrom_iff (h : Pages t pages) {P : List Page} (hP : Rest pages P) :
    (∃ fuel, scanFrom fuel (cursor (endIterator pages) P) t = .ok ((live P).map Prod.fst) t) ↔ ∀ pg ∈ P.dropLast, pg.2 ≠ [] := by
  -- by the number of rows, one of which is visited in every step
  induction hn : (live P).length using Nat.strong_induction_on generalizing P with
  | _ n ih =>
    rcases hP with rfl | ⟨A, o, C, D, B, rfl, rfl, hDC⟩
    · exact iff_of_true ⟨1, h.scan_end 0⟩ (by simp)
    · cases D with
      | nil =>
        obtain rfl := hDC rfl
        by_cases hB : B = []
        · subst hB
          have hend : cursor (endIterator (A ++ [(o, [])])) [(o, [])] = endIterator (A ++ [(o, [])]) := by
            simp [endIterator, cursor, endOf]
          refine iff_of_true ⟨1, ?_⟩ (by simp)
          rw [List.nil_append, hend]
          exact h.scan_end 0
        · -- the header is visited
          refine iff_of_false ?_ fun hno => hno (o, []) (by simp [List.dropLast_cons_of_ne_nil hB]) rfl
          rintro ⟨fuel, hrun⟩
          obtain ⟨_, _, _, l, _, _, _, hl⟩ := h.scan_cons (h.offset_ne hB 0) hrun
          have hmem : (⟨0, o⟩ : RowIterator) ∈ (live ((o, []) :: B)).map Prod.fst := hl ▸ List.mem_cons_self
          obtain ⟨x, hx, hx0⟩ := List.mem_map.mp hmem
          have hpos := h.position (x := x) (by
            rw [live_append]
            exact List.mem_append_right _ hx)
          rw [hx0] at hpos
          exact absurd hpos (by simp)
      | cons y D =>
        have hne := h.row_ne
        have hcursor : cursor (endIterator (A ++ (o, C ++ y :: D) :: B)) ((o, y :: D) :: B) = ⟨y.1, o⟩ := rfl
        have hlive := live_behind o y D B
        rw [dropLast_behind, hcursor, hlive, List.map_cons, ← ih _ (by rw [← hn, hlive]; simp) (rest_behind A o C y D B) rfl]
        constructor
        · rintro ⟨fuel, hrun⟩
          obtain ⟨fuel', it', t₁, l', -, hnext, hscan, hl⟩ := h.scan_cons hne hrun
          obtain ⟨rfl, rfl⟩ : cursor _ (behind o D B) = it' ∧ t = t₁ := by
            simpa using h.step.symm.trans hnext
          obtain ⟨-, rfl⟩ := List.cons.inj hl
          exact ⟨fuel', hscan⟩
        · rintro ⟨fuel, hrun⟩
          refine ⟨fuel + 1, ?_⟩
          rw [scanFrom, bind_run h.endRows_run, if_neg hne, bind_run h.step, bind_run hrun]
          rfl

/-! ### Runs -/

/-- A table that has had no rows yet. -/
structure NoRows (t : Ddl.Table) : Prop where
  names : (t.schema.index.map Ddl.Index.name).Nodup
  data : ∀ o, t.data o = false
  root : t.schema.header.dataRoot < 0
  last : t.schema.header.dataOffset < 0
  pool : ∃ fs lim, Pool (tree t) fs lim

/-- The blocks of rows and what refers to them are as before, and are not handed out. -/
structure Aside (t t' : Ddl.Table) : Prop where
  names : (t'.schema.index.map Ddl.Index.name).Nodup
  data : t'.data = t.data
  cache : ∀ o, t.data o = true → t'.cache o = t.cache o
  root : t'.schema.header.dataRoot = t.schema.header.dataRoot
  last : t'.schema.header.dataOffset = t.schema.header.dataOffset
  pool : ∃ fs lim, Pool (tree t') fs lim ∧ ∀ o, t.data o = true → o ∉ fs ∧ o < lim

/-- Rows are put into a table and taken out of it, which leaves some rows. Between these steps there are
others, as those on the blocks of indexes. -/
inductive Run : Ddl.Table → List (RowIterator × RowBytes) → Prop
  | start {t : Ddl.Table} : NoRows t → Run t []
  | insert {t t' : Ddl.Table} {L : List (RowIterator × RowBytes)} {r : RowBytes} {row buf : Buffer} {o q : ℤ} : Run t L → r.Of row → r.bytes.length ≤ 32744 →
      storeRow row t = .ok (o, q, buf) t' → Run t' (L ++ [(⟨q, o⟩, r)])
  | remove {t t' : Ddl.Table} {L R : List (RowIterator × RowBytes)} {x : RowIterator × RowBytes} : Run t (L ++ x :: R) →
      unlinkRowAt x.1.position x.1.offset t = .ok () t' → Run t' (L ++ R)
  | aside {t t' : Ddl.Table} {L : List (RowIterator × RowBytes)} : Run t L → Aside t t' → Run t' L

variable {L : List (RowIterator × RowBytes)}

theorem NoRows.rooms (h : NoRows t) : ∃ fs lim, Rooms t [] fs lim := by
  obtain ⟨fs, lim, hpool⟩ := h.pool
  refine ⟨fs, lim, ⟨h.names, by simp, by simp, fun o => by simp [h.data], by simp, trivial, ?_, ?_⟩, hpool, by simp, by simp⟩
  · simp [ofOffset, h.root]
  · simp [ofOffset, h.last]

theorem Rooms.aside (h : Rooms t pages fs lim) (ha : Aside t t') : ∃ fs lim, Rooms t' pages fs lim := by
  obtain ⟨fs', lim', hpool, hout⟩ := ha.pool
  have hdata : ∀ o ∈ pages.map Prod.fst, t.data o = true := fun o ho => (h.data o).mpr ho
  refine ⟨fs', lim', ⟨ha.names, h.aligned, h.nodup, by rw [ha.data]; exact h.data, fun pg hpg => ?_, ?_, ?_, ?_⟩, hpool,
    fun o ho => (hout o (hdata o ho)).1, fun o ho => (hout o (hdata o ho)).2⟩
  · rw [ha.cache pg.1 (hdata pg.1 (List.mem_map_of_mem hpg))]
    exact h.holds pg hpg
  · exact h.linked.congr fun o ho => by rw [nextOf, nextOf, ha.cache o (hdata o ho)]
  · rw [ha.root]
    exact h.root
  · rw [ha.last]
    exact h.last

theorem Run.rooms (h : Run t L) : ∃ pages fs lim, Rooms t pages fs lim ∧ live pages = L := by
  induction h with
  | start hno =>
    obtain ⟨fs, lim, hrooms⟩ := hno.rooms
    exact ⟨[], fs, lim, hrooms, rfl⟩
  | insert _ hrow hfits hrun ih =>
    obtain ⟨pages, fs, lim, hrooms, rfl⟩ := ih
    obtain ⟨o', q', buf', t'', pages', fs', lim', hrun', hrooms', hlive, -⟩ := hrooms.store hrow hfits
    obtain ⟨⟨rfl, rfl, rfl⟩, rfl⟩ : ((o' = _ ∧ (q' : ℤ) = _ ∧ buf' = _) ∧ t'' = _) := by simpa using hrun'.symm.trans hrun
    exact ⟨pages', fs', lim', hrooms', hlive⟩
  | remove _ hrun ih =>
    obtain ⟨pages, fs, lim, hrooms, hlive⟩ := ih
    obtain ⟨t'', pages', hrun', hrooms', hlive'⟩ := hrooms.unlink hlive
    obtain rfl : t'' = _ := by simpa using hrun'.symm.trans hrun
    exact ⟨pages', fs, lim, hrooms', hlive'⟩
  | aside _ ha ih =>
    obtain ⟨pages, fs, lim, hrooms, hlive⟩ := ih
    obtain ⟨fs', lim', hrooms'⟩ := hrooms.aside ha
    exact ⟨pages, fs', lim', hrooms', hlive⟩

/-- A row is put into a table. -/
theorem Run.store {r : RowBytes} {row : Buffer} (h : Run t L) (hrow : r.Of row) (hr : r.bytes.length ≤ 32744) :
    ∃ it t', Run t' (L ++ [(it, r)]) := by
  obtain ⟨pages, fs, lim, hrooms, rfl⟩ := h.rooms
  obtain ⟨o, q, buf, t', _, _, _, hrun, -, -⟩ := hrooms.store hrow hr
  exact ⟨⟨q, o⟩, t', h.insert hrow hr hrun⟩

/-- A table that has just been created. -/
def created (name : Dml.Name) (wrk : WorkSchema) : Ddl.Table :=
  ⟨wrk.toSchema name, fun _ => none, [], fun _ => none, fun _ => none, fun _ => false⟩

theorem noRows_created (name : Dml.Name) (wrk : WorkSchema) (hn : (wrk.index.map Ddl.Index.name).Nodup) : NoRows (created name wrk) where
  names := hn
  data _ := rfl
  root := show (-1 : ℤ) < 0 by decide
  last := show (-1 : ℤ) < 0 by decide
  pool := ⟨[], 0, show (-1 : ℤ) < 0 by decide, rfl, ⟨le_rfl, rfl⟩, List.nodup_nil, by simp⟩

/-- A block with a block behind it has rows. -/
theorem Pages.inner_iff (h : Pages t pages) : (∀ pg ∈ pages.dropLast, pg.2 ≠ []) ↔
    ∀ o blk, t.data o = true → t.cache o = some blk → blk.next ≠ invalidSiblingRef → blk.rowHead ≠ 0 := by
  constructor
  · intro hin o blk ho hblk hnext
    obtain ⟨⟨_, rows⟩, hmem, rfl⟩ := List.mem_map.mp ((h.data o).mp ho)
    obtain ⟨A, B, rfl⟩ := List.append_of_mem hmem
    obtain ⟨blk', hblk', hrows, -⟩ := h.block
    obtain rfl : blk = blk' := by simpa [hblk] using hblk'
    have hbehind := h.next hblk
    rw [if_neg hnext] at hbehind
    have hB : B ≠ [] := by
      rintro rfl
      exact nomatch hbehind
    have hne := hin _ (by
      rw [List.dropLast_append_of_ne_nil (List.cons_ne_nil _ _), List.dropLast_cons_of_ne_nil hB]
      exact List.mem_append_right _ List.mem_cons_self)
    obtain ⟨y, D, rfl⟩ := List.exists_cons_of_ne_nil hne
    have hy := (hrows.bounds y (by simp)).1
    rw [hrows.head, List.map_cons, List.headD_cons]
    omega
  · rintro hall ⟨o, rows⟩ hpg rfl
    obtain ⟨A, B, hAB⟩ := List.append_of_mem hpg
    have hpages : pages ≠ [] := by
      rintro rfl
      exact nomatch hpg
    obtain ⟨z, hz⟩ : ∃ z, pages = A ++ (o, []) :: (B ++ [z]) :=
      ⟨pages.getLast hpages, by rw [← List.cons_append, ← List.append_assoc, ← hAB, List.dropLast_append_getLast]⟩
    subst hz
    obtain ⟨blk, hblk, hrows, -⟩ := h.block
    have hbehind := h.next hblk
    refine hall o blk ((h.data o).mpr (by simp)) hblk (fun e => ?_) hrows.head
    rw [if_pos e] at hbehind
    cases B <;> exact nomatch hbehind

/-- A scan visits the rows that have not been removed, in the order in which they have been put into the
table, if and only if every block of rows with another one behind it has a row. -/
theorem rows_scanned_iff (h : Run t L) : (∃ fuel, scan fuel t = .ok (L.map Prod.fst) t) ↔
    ∀ o blk, t.data o = true → t.cache o = some blk → blk.next ≠ invalidSiblingRef → blk.rowHead ≠ 0 := by
  obtain ⟨pages, fs, lim, hrooms, rfl⟩ := h.rooms
  rw [← hrooms.inner_iff, ← hrooms.scanFrom_iff (rest_self pages)]
  refine exists_congr fun fuel => ?_
  rw [scan, bind_run hrooms.beginRows_run]

/-- A row that is too long for two of them in one block. -/
def longRow : RowBytes where
  bytes := [78, 32, 0, 0, 0, 0] ++ List.replicate 19994 0
  size := by
    rw [List.length_append, List.length_replicate]
    rfl
  six := by
    rw [List.length_append, List.length_replicate]
    decide
  byte := List.forall_mem_append.mpr ⟨by decide, fun v hv => (List.eq_of_mem_replicate hv).symm ▸ by decide⟩

theorem length_longRow : longRow.bytes.length = 20000 := by
  rw [longRow, List.length_append, List.length_replicate]
  rfl

/-- The buffer of a row. -/
theorem RowBytes.of_make (r : RowBytes) : r.Of (Buffer.make r.bytes.length fun p => r.bytes.getD p 0) where
  bound := le_rfl
  bytes := by
    rw [slice]
    exact List.ext_getElem (by simp) fun i _ hi => by simp [Buffer.make, List.getElem?_eq_getElem hi]

/-- There is one such row in a block. -/
theorem HoldsRows.longRow_alone {C D : List (ℕ × RowBytes)} {y z : ℕ × RowBytes} (h : HoldsRows blk (C ++ y :: D)) (hy : y.2 = longRow)
    (hz : z ∈ D) (hlong : z.2 = longRow) : False := by
  have hbefore := (List.pairwise_cons.mp (List.pairwise_append.mp h.order).2.1).1 z hz
  have hfirst := h.bounds y (by simp)
  have hlast := h.bounds z (by simp [hz])
  have hroom := h.room.1
  rw [hy, length_longRow] at hbefore
  rw [hlong, length_longRow] at hlast
  omega

/-- Two such rows are put into a table, and the first one is taken out of it again, which leaves its block empty. -/
theorem run_longRow : ∃ t it₁ it₂ t' pages pages' fs lim, Run t [(it₁, longRow), (it₂, longRow)] ∧ Rooms t pages fs lim ∧
    (∀ pg ∈ pages, pg.2 ≠ []) ∧ unlinkRowAt it₁.position it₁.offset t = .ok () t' ∧ Run t' [(it₂, longRow)] ∧
    Rooms t' pages' fs lim ∧ ∃ pg ∈ pages'.dropLast, pg.2 = [] := by
  have hno := noRows_created (default, default) ⟨[], [], []⟩ List.nodup_nil
  have hlen : longRow.bytes.length ≤ 32744 := length_longRow ▸ by decide
  obtain ⟨fs, lim, hrooms⟩ := hno.rooms
  obtain ⟨o₁, q₁, _, t₁, pages₁, fs₁, lim₁, hrun₁, hrooms₁, hlive₁, hne₁⟩ := hrooms.store longRow.of_make hlen
  obtain ⟨o₂, q₂, _, t₂, pages₂, fs₂, lim₂, hrun₂, hrooms₂, hlive₂, hne₂⟩ := hrooms₁.store longRow.of_make hlen
  have hrows : Run t₂ [(⟨q₁, o₁⟩, longRow), (⟨q₂, o₂⟩, longRow)] :=
    ((Run.start hno).insert longRow.of_make hlen hrun₁).insert longRow.of_make hlen hrun₂
  have hne := hne₂ (hne₁ fun pg hpg => absurd hpg List.not_mem_nil)
  rw [hlive₁] at hlive₂
  obtain ⟨A, B, C, D, y, o, rfl, hfirst, hbefore, hbehind⟩ := @live_split _ [] [(⟨q₂, o₂⟩, longRow)] (⟨q₁, o₁⟩, longRow) hlive₂
  have hlong : y.2 = longRow := (Prod.mk.inj hfirst).2.symm
  -- the second row is not in the block of the first one
  obtain ⟨blk, -, hblk⟩ := hrooms₂.holds (o, C ++ y :: D) (by simp)
  obtain rfl : D = [] := List.eq_nil_iff_forall_not_mem.mpr fun z hz => hblk.longRow_alone hlong hz (by
    have hmem : ((⟨z.1, o⟩, z.2) : RowIterator × RowBytes) ∈ [((⟨q₂, o₂⟩ : RowIterator), longRow)] :=
      hbehind ▸ List.mem_append_left _ (List.mem_map_of_mem hz)
    exact (Prod.mk.inj (List.mem_singleton.mp hmem)).2)
  obtain rfl : C = [] := List.map_eq_nil_iff.mp (List.append_eq_nil_iff.mp hbefore.symm).2
  have hB : B ≠ [] := by
    rintro rfl
    cases hbehind
  obtain ⟨t₃, hrun₃, hrooms₃⟩ := hrooms₂.unlinkRow
  have hunlink : unlinkRowAt q₁ o₁ t₂ = .ok () t₃ := by
    obtain ⟨hq, rfl⟩ := RowIterator.mk.inj (Prod.mk.inj hfirst).1
    rw [hq]
    exact hrun₃
  refine ⟨t₂, _, _, t₃, _, _, _, _, hrows, hrooms₂, hne, hunlink, .remove (L := []) hrows hunlink, hrooms₃, (o, []), ?_, rfl⟩
  rw [List.dropLast_append_of_ne_nil (List.cons_ne_nil _ _), List.dropLast_cons_of_ne_nil hB]
  exact List.mem_append_right _ List.mem_cons_self

/-- The scan visits both rows, and when the first one has been taken out it does not find the second one. -/
theorem rows_scanned_long : ∃ t it₁ it₂ t', Run t [(it₁, longRow), (it₂, longRow)] ∧
    unlinkRowAt it₁.position it₁.offset t = .ok () t' ∧ Run t' [(it₂, longRow)] ∧
    (∃ fuel, scan fuel t = .ok [it₁, it₂] t) ∧ ¬∃ fuel, scan fuel t' = .ok [it₂] t' := by
  obtain ⟨t, it₁, it₂, t', pages, pages', fs, lim, h, hrooms, hne, hunlink, h', hrooms', pg, hpg, hempty⟩ := run_longRow
  refine ⟨t, it₁, it₂, t', h, hunlink, h', (rows_scanned_iff h).mpr (hrooms.inner_iff.mp fun pg hpg => hne pg (List.dropLast_subset _ hpg)), ?_⟩
  exact (rows_scanned_iff h').not.mpr fun hall => hrooms'.inner_iff.mpr hall pg hpg hempty

/-- What has been put into a table is kept until it is removed, apart from the positions of other rows. -/
theorem rows_stored {x : RowIterator × RowBytes} (h : Run t L) (hx : x ∈ L) :
    ∃ blk p, t.cache x.1.offset = some blk ∧ x.1.position = (p : ℕ) ∧ Stores (raw blk) p x.2 := by
  obtain ⟨pages, fs, lim, hrooms, rfl⟩ := h.rooms
  obtain ⟨pg, hpg, hx⟩ := List.mem_flatMap.mp hx
  obtain ⟨y, hy, rfl⟩ := List.mem_map.mp hx
  obtain ⟨blk, hblk, hrows⟩ := hrooms.holds pg hpg
  exact ⟨blk, y.1, hblk, rfl, hrows.stores y hy⟩

/-- The second row is where it was put when the first one has been taken out, which the scan does not find. -/
theorem rows_stored_long : ∃ t it₁ it₂ t' blk p, Run t [(it₁, longRow), (it₂, longRow)] ∧
    unlinkRowAt it₁.position it₁.offset t = .ok () t' ∧ t'.cache it₂.offset = some blk ∧ it₂.position = (p : ℕ) ∧
    Stores (raw blk) p longRow := by
  obtain ⟨t, it₁, it₂, t', _, _, _, _, h, -, -, hunlink, h', -, -⟩ := run_longRow
  obtain ⟨blk, p, hblk, hp, hstores⟩ := rows_stored h' (List.mem_singleton_self _)
  exact ⟨t, it₁, it₂, t', blk, p, h, hunlink, hblk, hp, hstores⟩

end RedB.Rows
