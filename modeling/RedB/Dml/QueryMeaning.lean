import RedB.Dml.Query

/-!
# What queries put out

Every loop puts out the lines of the joined rows that begin with the rows at hand, and leaves the items filled with the rows it
has set (`Query.Loop.run`). By induction on the joins, all loops do (`execJoin_runs`).

So an inner join is the product of its tables, filtered by all conditions (`select_inner`). A left join adds a line for every
row of the first table for which nothing else is put out (`select_left`), and with two tables it is right if and only if this
happens to no row that has a match, and to no row that WHERE rejects (`select_left_iff`). Which of them a list is depends on
its first join and on the flag, which `make_query` does not set from the list that it leaves.
-/

namespace RedB.Dml

variable {A : Arith}

/-! ### The loops -/

/-- The conditions of the joins can be reset, as long as their rows are of the tables they are of. -/
def OnsReset (A : Arith) : List Joined → ℕ → List Table → (ℕ → Cond) → Prop
  | [], _, _, _ => True
  | j :: js, i, ts, ons =>
      (∀ lt, ts[j.prev]? = some lt → Resets A lt j.table j.onCond (ons i)) ∧ OnsReset A js (i + 1) (ts ++ [j.table]) ons

theorem OnsReset.congr {js : List Joined} {i : ℕ} {ts : List Table} {ons ons' : ℕ → Cond} (h : OnsReset A js i ts ons)
    (he : ∀ k, i ≤ k → ons' k = ons k) : OnsReset A js i ts ons' := by
  induction js generalizing i ts with
  | nil => trivial
  | cons j js ih =>
    refine ⟨fun lt hlt => ?_, ih h.2 fun k hk => he k (by omega)⟩
    rw [he i le_rfl]
    exact h.1 lt hlt

namespace Query

variable (A) in
/-- A query in whose items these values are set: in the expressions, and in the WHERE condition. -/
structure Ready (q₀ : Query) (N : List Table) (js : List Joined) (i : ℕ) (ts : List Table) (ρ σ : Seen) (q : Query) : Prop where
  exprs : q.exprs.map some = q₀.exprs.map (fill A ρ)
  cond : q.cond.map some = q₀.cond.map (fill A σ)
  exprsOf : ρ.Of N
  condOf : σ.Of N
  ons : OnsReset A js i ts q.ons

/-- These lines are put out, and the conditions of the tables before table `i` stay. -/
structure Puts (i : ℕ) (out : List (List Text)) (q q' : Query) : Prop where
  output : q'.output = q.output ++ out
  didOutput : q'.didOutput = (q.didOutput || !out.isEmpty)
  ons : ∀ k < i, q'.ons k = q.ons k

theorem Puts.refl (i : ℕ) (q : Query) : Puts i [] q q := ⟨by simp, by simp, fun _ _ => rfl⟩

theorem Puts.trans {i : ℕ} {out out' : List (List Text)} {q q' q'' : Query} (h : Puts i out q q') (h' : Puts i out' q' q'') :
    Puts i (out ++ out') q q'' where
  output := by rw [h'.output, h.output, List.append_assoc]
  didOutput := by
    rw [h'.didOutput, h.didOutput]
    cases out <;> simp
  ons k hk := (h'.ons k hk).trans (h.ons k hk)

theorem Puts.mono {i i' : ℕ} {out : List (List Text)} {q q' : Query} (h : Puts i out q q') (hi : i' ≤ i) : Puts i' out q q' :=
  ⟨h.output, h.didOutput, fun k hk => h.ons k (by omega)⟩

variable {q₀ q : Query} {N ts : List Table} {js : List Joined} {i : ℕ} {ρ σ : Seen}

/-- The values of a row or of two are set in all items. -/
theorem Ready.setValues (h : Ready A q₀ N js i ts ρ σ q) (ht : q₀.Total A N) {set : Cond → Option Cond} {vs : List View}
    (hset : ∀ (ρ : Seen) c c', ρ.Of N → (∀ σ, σ.Of N → fill A σ c ≠ none) → fill A ρ c = some c' → set c' = fill A (ρ.overlay vs) c)
    (hof : ∀ ρ : Seen, ρ.Of N → (ρ.overlay vs).Of N) :
    ∃ q', q.setValues set = some q' ∧ Ready A q₀ N js i ts (ρ.overlay vs) (σ.overlay vs) q' ∧ Puts i [] q q' := by
  have hexprs : ∀ e ∈ q₀.exprs, ∀ σ, σ.Of N → fill A σ e ≠ none := fun e he σ hσ => fill_ne_none ((ht σ hσ).1 e he)
  have hbind : ∀ e ∈ q₀.exprs, (fill A ρ e).bind set = fill A (ρ.overlay vs) e := by
    intro e he
    obtain ⟨e', he'⟩ := Option.ne_none_iff_exists'.mp (hexprs e he ρ h.exprsOf)
    rw [he']
    exact hset ρ e e' h.exprsOf (hexprs e he) he'
  obtain ⟨es, hes, hmap⟩ := mapM_filled h.exprs hbind fun e he => hexprs e he _ (hof ρ h.exprsOf)
  have hcond : ∃ c', q.cond.mapM set = some c' ∧ c'.map some = q₀.cond.map (fill A (σ.overlay vs)) := by
    have hc := h.cond
    cases hq : q.cond with
    | none =>
      rw [hq] at hc
      cases hq₀ : q₀.cond with
      | none => exact ⟨none, rfl, rfl⟩
      | some c =>
        rw [hq₀] at hc
        cases hc
    | some c' =>
      rw [hq] at hc
      cases hq₀ : q₀.cond with
      | none =>
        rw [hq₀] at hc
        cases hc
      | some c =>
        rw [hq₀] at hc
        obtain ⟨c'', hc''⟩ := Option.ne_none_iff_exists'.mp (fill_ne_none ((ht _ (hof σ h.condOf)).2 c hq₀))
        refine ⟨some c'', ?_, by rw [Option.map_some, Option.map_some, hc'']⟩
        rw [Option.mapM_some, hset σ c c' h.condOf (fun σ hσ => fill_ne_none ((ht σ hσ).2 c hq₀)) (Option.some.inj hc).symm, hc'']
        rfl
  obtain ⟨c', hc', hcmap⟩ := hcond
  refine ⟨{ q with exprs := es, cond := c' }, ?_, ⟨hmap, hcmap, hof ρ h.exprsOf, hof σ h.condOf, h.ons⟩, by simp, by simp, fun _ _ => rfl⟩
  rw [Query.setValues, hes, hc']
  rfl

/-- The values of the expressions are put out. -/
theorem Ready.outputExprList (h : Ready A q₀ N js i ts ρ σ q) (ht : q₀.Total A N) :
    ∃ q', q.outputExprList A = some q' ∧ Ready A q₀ N js i ts ρ σ q' ∧ Puts i [q₀.line A ρ] q q' := by
  have hline := mapM_exec h.exprs fun e he => (ht ρ h.exprsOf).1 e he
  refine ⟨{ q with didOutput := true, output := q.output ++ [q₀.line A ρ] }, ?_, ⟨h.exprs, h.cond, h.exprsOf, h.condOf, h.ons⟩, rfl, ?_, fun _ _ => rfl⟩
  · rw [Query.outputExprList, hline]
    rfl
  · simp

/-- The WHERE condition, of values that are the same everywhere. -/
theorem Ready.execWhere {rows : List Placed} (h : Ready A q₀ N js i ts (seen rows) (seen rows) q) (ht : q₀.Total A N) :
    ∃ q', q.execWhere A = some q' ∧ Ready A q₀ N js i ts (seen rows) (seen rows) q' ∧ Puts i (q₀.lines A [] rows) q q' := by
  have hlines : q₀.lines A [] rows = if q₀.accepts A rows then [q₀.line A (seen rows)] else [] := by
    rw [lines, joinedRows, List.filter_singleton]
    cases q₀.accepts A rows <;> rfl
  have hc := h.cond
  rw [hlines, Query.execWhere]
  cases hq : q.cond with
  | none =>
    rw [hq] at hc
    cases hq₀ : q₀.cond with
    | some c =>
      rw [hq₀] at hc
      cases hc
    | none =>
      have hacc : q₀.accepts A rows = true := by rw [accepts, hq₀]; rfl
      rw [if_pos hacc]
      exact h.outputExprList ht
  | some c' =>
    rw [hq] at hc
    cases hq₀ : q₀.cond with
    | none =>
      rw [hq₀] at hc
      cases hc
    | some c =>
      rw [hq₀] at hc
      obtain ⟨res, hres⟩ := Option.ne_none_iff_exists'.mp ((ht _ h.condOf).2 c hq₀)
      have hexec : execCondition A c' = some res := by
        rw [evalAt, ← Option.some.inj hc] at hres
        exact hres
      have hacc : q₀.accepts A rows = decide (res = "true".toList) := by
        rw [accepts, hq₀]
        simp only [Option.all_some, hres, Option.some.injEq]
      rw [hacc]
      simp only [hexec, Option.bind_eq_bind, Option.bind_some, decide_eq_true_eq]
      split
      · exact h.outputExprList ht
      · exact ⟨q, rfl, h, Puts.refl i q⟩

end Query

/-! ### The rows that are tested -/

theorem mem_placed {t : Table} {r : Placed} : r ∈ t.placed ↔ r.1 = t ∧ r.2 ∈ t.rows := by
  constructor
  · intro h
    obtain ⟨r, hr, rfl⟩ := List.mem_map.mp h
    exact ⟨rfl, hr⟩
  · rintro ⟨rfl, h⟩
    exact List.mem_map.mpr ⟨r.2, h, rfl⟩

theorem Joined.on_eq {j : Joined} {rows : List Placed} {l r : Placed} (h : rows[j.prev]? = some l) :
    j.on A rows r = decide (holds A l.1 r.1 j.onCond l.2 r.2 = some true) := by
  rw [Joined.on, h]

theorem eq_of_perm {α : Type} {l l' : List α} (hl : l.length ≤ 1) (h : l.Perm l') : l = l' := by
  rcases l with _ | ⟨a, _ | ⟨b, l⟩⟩
  · exact (List.nil_perm.mp h).symm
  · exact (List.singleton_perm.mp h)
  · simp at hl

/-- The rows that are tested and meet the condition are those that match. -/
theorem Joined.Ok.candidates {j : Joined} {rows : List Placed} {l : Placed} (h : j.Ok A l.1) (hl : rows[j.prev]? = some l)
    (hmem : l.2 ∈ l.1.rows) : ∃ fgn cand, j.foreign l.1 = some fgn ∧ j.candidates l fgn = some cand ∧
      (∀ r ∈ cand, r ∈ j.table.placed) ∧ cand.filter (j.on A rows) = matching A j rows := by
  cases hname : j.fgnName with
  | none =>
    refine ⟨none, j.table.placed, ?_, rfl, fun r hr => hr, rfl⟩
    rw [Joined.foreign, hname]
  | some name =>
    obtain ⟨hw, fgn, hf, hlook⟩ := h.index name hname
    have hl' := hlook l.2 hmem
    rw [LooksUp, if_pos fun r hr => h.conds l.2 hmem r hr] at hl'
    obtain ⟨key, hkey, hfind⟩ := hl'
    refine ⟨some fgn, (j.table.find PK_NDX key).toList.map fun r => (j.table, r), ?_, ?_, ?_, ?_⟩
    · rw [Joined.foreign, hname]
      simp only [hf, Option.map_some]
    · rw [Joined.candidates, hkey]
      rfl
    · intro r hr
      obtain ⟨r', hr', rfl⟩ := List.mem_map.mp hr
      exact mem_placed.mpr ⟨rfl, (hw.find_mem (Option.mem_toList.mp hr')).1⟩
    · have hp := (pairs_find_iff hw key (fun r => j.on A rows (j.table, r) = true) l.2).mpr fun r hr hon =>
        hfind r hr (of_decide_eq_true ((Joined.on_eq hl).symm.trans hon))
      have hp := (Multiset.coe_eq_coe.mp hp).map Prod.snd
      rw [List.map_map, List.map_map] at hp
      have hid : (Prod.snd ∘ fun r : ℕ × Row => (l.2, r)) = id := rfl
      rw [hid, List.map_id, List.map_id] at hp
      have heq : (j.table.find PK_NDX key).toList.filter (fun r => j.on A rows (j.table, r) = true) =
          j.table.rows.filter fun r => j.on A rows (j.table, r) = true := by
        refine eq_of_perm ?_ hp
        refine (List.length_filter_le _ _).trans ?_
        cases j.table.find PK_NDX key <;> simp
      simp only [matching, Table.placed, List.filter_map]
      simp only [Bool.decide_eq_true] at heq
      exact congrArg _ heq

theorem mem_visited {js : List Joined} {rows : List Placed} {p : Placed} (h : p ∈ visited A js rows) :
    p.1 ∈ js.map Joined.table ∧ p.2 ∈ p.1.rows := by
  induction js generalizing rows with
  | nil => cases h
  | cons j js ih =>
    obtain ⟨r, hr, hp⟩ := List.mem_flatMap.mp h
    rcases List.mem_cons.mp hp with rfl | hp
    · obtain ⟨ht, hrow⟩ := mem_placed.mp (List.mem_of_mem_filter hr)
      exact ⟨ht ▸ List.mem_cons_self, by rwa [ht]⟩
    · obtain ⟨ht, hrow⟩ := ih hp
      exact ⟨List.mem_cons_of_mem _ ht, hrow⟩

theorem Query.lines_cons (q : Query) (j : Joined) (js : List Joined) (rows : List Placed) :
    q.lines A (j :: js) rows = (matching A j rows).flatMap fun r => q.lines A js (rows ++ [r]) := by
  rw [Query.lines, joinedRows, List.filter_flatMap, List.map_flatMap]
  rfl

/-! ### One loop -/

namespace Query

variable {q₀ : Query} {N : List Table} {js : List Joined} {i : ℕ} {rows : List Placed} {j : Joined} {l : Placed}

variable (A) in
/-- What the loops behind some rows do: they put out the lines of the joined rows that begin with them. -/
def Runs (q₀ : Query) (N : List Table) (js : List Joined) (i : ℕ) (rows : List Placed) (run : Query → Option Query) : Prop :=
  ∀ ρ σ q, Ready A q₀ N js i (rows.map Prod.fst) ρ σ q → ρ.Covers rows → σ.Covers rows →
    ∃ q', run q = some q' ∧ Ready A q₀ N js i (rows.map Prod.fst) (ρ.overlay ((visited A js rows).map Placed.view))
      (σ.overlay ((visited A js rows).map Placed.view)) q' ∧ Puts i (q₀.lines A js rows) q q'

variable (A) in
/-- What a loop needs: values are set in the items by its rows, and then those behind it run. The property is one that the
values have between its rows. -/
structure Loop (q₀ : Query) (N : List Table) (j : Joined) (js : List Joined) (i : ℕ) (rows : List Placed) (I : Seen → Prop)
    (pre : Placed → List Placed) (set : Placed → Cond → Option Cond) (next : Placed → Query → Option Query) : Prop where
  set : ∀ r ∈ j.table.placed, ∀ (ρ : Seen) c c', ρ.Of N → (∀ σ, σ.Of N → fill A σ c ≠ none) → fill A ρ c = some c' →
    set r c' = fill A (ρ.overlay ((pre r).map Placed.view)) c
  mem : ∀ r ∈ j.table.placed, ∀ p ∈ pre r, p.1 ∈ N ∧ p.2 ∈ p.1.rows
  covers : ∀ r ∈ j.table.placed, ∀ ρ, I ρ → (ρ.overlay ((pre r).map Placed.view)).Covers (rows ++ [r])
  keeps : ∀ r ∈ j.table.placed, ∀ ρ, I ρ → I (ρ.overlay ((pre r ++ visited A js (rows ++ [r])).map Placed.view))
  next : ∀ r ∈ j.table.placed, Runs A q₀ N js (i + 1) (rows ++ [r]) (next r)

variable {I : Seen → Prop} {pre : Placed → List Placed} {set : Placed → Cond → Option Cond} {next : Placed → Query → Option Query}

/-- A row of a loop. -/
theorem Loop.step (h : Loop A q₀ N j js i rows I pre set next) (ht : q₀.Total A N) (hok : j.Ok A l.1) (hl : rows[j.prev]? = some l)
    (hmem : l.2 ∈ l.1.rows) {r : Placed} (hr : r ∈ j.table.placed) {ρ σ : Seen} {q : Query}
    (hq : Ready A q₀ N (j :: js) i (rows.map Prod.fst) ρ σ q) (hρ : I ρ) (hσ : I σ) :
    ∃ q', tryRow A (set r) (next r) i l.view r.view q = some q' ∧
      Ready A q₀ N (j :: js) i (rows.map Prod.fst)
        (ρ.overlay ((if j.on A rows r then pre r ++ visited A js (rows ++ [r]) else []).map Placed.view))
        (σ.overlay ((if j.on A rows r then pre r ++ visited A js (rows ++ [r]) else []).map Placed.view)) q' ∧
      Puts i (if j.on A rows r then q₀.lines A js (rows ++ [r]) else []) q q' := by
  obtain ⟨hrt, hrrows⟩ := mem_placed.mp hr
  have hlt : (rows.map Prod.fst)[j.prev]? = some l.1 := by rw [List.getElem?_map, hl, Option.map_some]
  have hreset := hq.ons.1 l.1 hlt
  have hne := hok.conds l.2 hmem r.2 hrrows
  have htest := hreset.testOn l.2 r.2
  rw [holds] at hne
  obtain ⟨b, hb⟩ := Option.ne_none_iff_exists'.mp hne
  obtain ⟨⟨c, b'⟩, hc, rfl⟩ := Option.map_eq_some_iff.mp hb
  rw [hc] at htest
  have hcreset := hreset.trans (resets_testOn htest)
  have hon : j.on A rows r = b' := by
    rw [Joined.on_eq hl, holds, hrt, hc]
    simp
  have hview : r.view = j.table.view r.2.2 := by rw [Placed.view, hrt]
  rw [← hview] at htest
  have hq1 : Ready A q₀ N (j :: js) i (rows.map Prod.fst) ρ σ { q with ons := Function.update q.ons i c } := by
    refine ⟨hq.exprs, hq.cond, hq.exprsOf, hq.condOf, fun lt hlt' => ?_, ?_⟩
    · rw [hlt] at hlt'
      obtain rfl := Option.some.inj hlt'
      show Resets A l.1 j.table j.onCond (Function.update q.ons i c i)
      rwa [Function.update_self]
    · exact hq.ons.2.congr fun k hk => Function.update_of_ne (by omega) _ _
  have hputs : Puts i [] q { q with ons := Function.update q.ons i c } :=
    ⟨by simp, by simp, fun k hk => Function.update_of_ne (by omega) _ _⟩
  cases b' with
  | false =>
    rw [hon]
    refine ⟨{ q with ons := Function.update q.ons i c }, ?_, hq1, hputs⟩
    rw [tryRow, show l.view = l.1.view l.2.2 from rfl, htest]
    rfl
  | true =>
    rw [hon, if_pos rfl, if_pos rfl]
    have hts : (rows ++ [r]).map Prod.fst = rows.map Prod.fst ++ [j.table] := by
      rw [List.map_append, List.map_singleton, hrt]
    have hq1' : Ready A q₀ N js (i + 1) ((rows ++ [r]).map Prod.fst) ρ σ { q with ons := Function.update q.ons i c } :=
      ⟨hq1.exprs, hq1.cond, hq1.exprsOf, hq1.condOf, hts ▸ hq1.ons.2⟩
    obtain ⟨q2, hset, hq2, hputs2⟩ := hq1'.setValues ht (h.set r hr) fun ρ hρ => hρ.overlay (h.mem r hr)
    obtain ⟨q3, hrun, hq3, hputs3⟩ := h.next r hr _ _ q2 hq2 (h.covers r hr ρ hρ) (h.covers r hr σ hσ)
    have hons : q3.ons i = c := by
      rw [hputs3.ons i (by omega), hputs2.ons i (by omega)]
      exact Function.update_self ..
    refine ⟨q3, ?_, ?_, ?_⟩
    · rw [tryRow, show l.view = l.1.view l.2.2 from rfl, htest]
      simp only [Option.bind_eq_bind, Option.bind_some, if_true, hset, hrun]
    · rw [List.map_append, Seen.over_append, Seen.over_append]
      refine ⟨hq3.exprs, hq3.cond, hq3.exprsOf, hq3.condOf, fun lt hlt' => ?_, hts ▸ hq3.ons⟩
      rw [hlt] at hlt'
      obtain rfl := Option.some.inj hlt'
      rw [hons]
      exact hcreset
    · exact hputs.trans ((hputs2.trans hputs3).mono (by omega))

/-- All rows of a loop. -/
theorem Loop.run (h : Loop A q₀ N j js i rows I pre set next) (ht : q₀.Total A N) (hok : j.Ok A l.1) (hl : rows[j.prev]? = some l)
    (hmem : l.2 ∈ l.1.rows) {cand : List Placed} (hcand : ∀ r ∈ cand, r ∈ j.table.placed) {ρ σ : Seen} {q : Query}
    (hq : Ready A q₀ N (j :: js) i (rows.map Prod.fst) ρ σ q) (hρ : I ρ) (hσ : I σ) :
    ∃ q', cand.foldlM (fun q r => tryRow A (set r) (next r) i l.view r.view q) q = some q' ∧
      Ready A q₀ N (j :: js) i (rows.map Prod.fst)
        (ρ.overlay (((cand.filter (j.on A rows)).flatMap fun r => pre r ++ visited A js (rows ++ [r])).map Placed.view))
        (σ.overlay (((cand.filter (j.on A rows)).flatMap fun r => pre r ++ visited A js (rows ++ [r])).map Placed.view)) q' ∧
      Puts i ((cand.filter (j.on A rows)).flatMap fun r => q₀.lines A js (rows ++ [r])) q q' := by
  induction cand generalizing ρ σ q with
  | nil => exact ⟨q, rfl, hq, Puts.refl i q⟩
  | cons r cand ih =>
    rw [List.forall_mem_cons] at hcand
    obtain ⟨q1, hstep, hq1, hputs1⟩ := h.step ht hok hl hmem hcand.1 hq hρ hσ
    have hI : ∀ ρ, I ρ → I (ρ.overlay ((if j.on A rows r then pre r ++ visited A js (rows ++ [r]) else []).map Placed.view)) := by
      intro ρ hρ
      split
      · exact h.keeps r hcand.1 ρ hρ
      · exact hρ
    obtain ⟨q2, hrun, hq2, hputs2⟩ := ih hcand.2 hq1 (hI ρ hρ) (hI σ hσ)
    have hsplit : ∀ {β : Type} (f : Placed → List β), ((r :: cand).filter (j.on A rows)).flatMap f =
        (if j.on A rows r then f r else []) ++ (cand.filter (j.on A rows)).flatMap f := by
      intro β f
      rw [List.filter_cons]
      split <;> rfl
    refine ⟨q2, ?_, ?_, ?_⟩
    · rw [List.foldlM_cons, hstep]
      exact hrun
    · rw [hsplit, List.map_append, Seen.over_append, Seen.over_append]
      exact hq2
    · rw [hsplit]
      exact hputs1.trans hputs2

end Query

/-! ### All loops -/

/-- The rows at hand, with the joins behind them. -/
structure At (A : Arith) (N : List Table) (js : List Joined) (rows : List Placed) : Prop where
  tables : N = rows.map Prod.fst ++ js.map Joined.table
  names : (N.map Table.name).Nodup
  mem : ∀ p ∈ rows, p.2 ∈ p.1.rows
  joins : JoinsOk A js (rows.map Prod.fst)

namespace At

variable {N : List Table} {js : List Joined} {rows : List Placed} {j : Joined}

theorem sub (h : At A N js rows) {p : Placed} (hp : p ∈ rows) : p.1 ∈ N := by
  rw [h.tables]
  exact List.mem_append_left _ (List.mem_map_of_mem hp)

theorem rowNames (h : At A N js rows) : (rows.map fun p => p.1.name).Nodup := by
  have hn := h.names
  rw [h.tables, List.map_append, List.map_map] at hn
  exact hn.of_append_left

theorem next (h : At A N (j :: js) rows) {r : Placed} (hr : r ∈ j.table.placed) : At A N js (rows ++ [r]) := by
  obtain ⟨hrt, hrrows⟩ := mem_placed.mp hr
  have hts : (rows ++ [r]).map Prod.fst = rows.map Prod.fst ++ [j.table] := by
    rw [List.map_append, List.map_singleton, hrt]
  refine ⟨?_, h.names, ?_, hts ▸ h.joins.2⟩
  · rw [hts, h.tables, List.map_cons, List.append_assoc, List.singleton_append]
  · intro p hp
    rcases List.mem_append.mp hp with hp | hp
    · exact h.mem p hp
    · obtain rfl := List.mem_singleton.mp hp
      rwa [hrt]

/-- The loops behind set no values of the rows at hand. -/
theorem notVisited (h : At A N js rows) {p : Placed} (hp : p ∈ rows) : p.1.name ∉ ((visited A js rows).map Placed.view).map View.tbl := by
  intro hmem
  rw [List.map_map] at hmem
  obtain ⟨v, hv, he⟩ := List.mem_map.mp hmem
  have hn := h.names
  rw [h.tables, List.map_append] at hn
  exact List.disjoint_of_nodup_append hn (List.mem_map_of_mem (List.mem_map_of_mem hp))
    (he ▸ List.mem_map_of_mem (mem_visited hv).1)

end At

/-- The loops behind some rows put out the lines of the joined rows that begin with them. -/
theorem execJoin_runs {q₀ : Query} {N : List Table} {js : List Joined} {i : ℕ} {rows : List Placed} (ht : q₀.Total A N)
    (h : At A N js rows) : q₀.Runs A N js i rows (execJoin A js i rows) := by
  induction js generalizing i rows with
  | nil =>
    intro ρ σ q hq hρ hσ
    have hN : N = rows.map Prod.fst := by rw [h.tables, List.map_nil, List.append_nil]
    obtain rfl := hρ.eq_seen (hN ▸ hq.exprsOf) h.rowNames h.mem
    obtain rfl := hσ.eq_seen (hN ▸ hq.condOf) h.rowNames h.mem
    exact hq.execWhere ht
  | cons j js ih =>
    intro ρ σ q hq hρ hσ
    obtain ⟨⟨lt, hlt, hok⟩, -⟩ := h.joins
    rw [List.getElem?_map] at hlt
    obtain ⟨l, hl, rfl⟩ := Option.map_eq_some_iff.mp hlt
    have hmem := h.mem l (List.mem_of_getElem? hl)
    obtain ⟨fgn, cand, hfgn, hcand, hplaced, hmatch⟩ := hok.candidates hl hmem
    have hloop : Query.Loop A q₀ N j js i rows (fun ρ => ρ.Covers rows) (fun r => [r]) (fun r => setColumnValue A r.view)
        (fun r => execJoin A js (i + 1) (rows ++ [r])) :=
      { set := fun r _ ρ c c' _ _ hc => setColumnValue_fill hc
        mem := fun r hr p hp => by
          obtain rfl := List.mem_singleton.mp hp
          have hat := h.next hr
          exact ⟨hat.sub (List.mem_append_right _ List.mem_cons_self), hat.mem p (List.mem_append_right _ List.mem_cons_self)⟩
        covers := fun r hr ρ hρ => by
          have hn := (h.next hr).rowNames
          rw [List.map_append, List.map_singleton] at hn
          intro p hp
          rcases List.mem_append.mp hp with hp | hp
          · have hne : p.1.name ≠ r.1.name := fun he =>
              List.disjoint_of_nodup_append hn (List.mem_map_of_mem hp) (List.mem_singleton.mpr he)
            exact (Seen.set_of_ne (v := r.view) hne).trans (hρ p hp)
          · obtain rfl := List.mem_singleton.mp hp
            exact Seen.set_self ρ p.view
        keeps := fun r hr ρ hρ => hρ.overlay fun p hp hin => by
          rw [List.map_append, List.map_append] at hin
          have hn := (h.next hr).rowNames
          rw [List.map_append, List.map_singleton] at hn
          rcases List.mem_append.mp hin with hin | hin
          · exact List.disjoint_of_nodup_append hn (List.mem_map_of_mem hp) hin
          · exact (h.next hr).notVisited (List.mem_append_left _ hp) hin
        next := fun r hr => ih (h.next hr) }
    obtain ⟨q', hrun, hq', hputs⟩ := hloop.run ht hok hl hmem hplaced hq hρ hσ
    rw [hmatch] at hq' hputs
    refine ⟨q', ?_, hq', Query.lines_cons q₀ j js rows ▸ hputs⟩
    rw [execJoin, hl]
    simp only [Option.bind_eq_bind, Option.bind_some, hfgn, hcand]
    exact hrun

/-! ### The rows of the first table -/

/-- The rows that meet all conditions are those of the product that do. -/
theorem joinedRows_eq (js : List Joined) (rows : List Placed) :
    joinedRows A js rows = ((tuples (js.map Joined.table)).filter (meets A js rows)).map (rows ++ ·) := by
  induction js generalizing rows with
  | nil => simp [joinedRows, tuples, meets]
  | cons j js ih =>
    have hrow : ∀ r : Placed, (((tuples (js.map Joined.table)).map (r :: ·)).filter (meets A (j :: js) rows)).map (rows ++ ·) =
        if j.on A rows r then joinedRows A js (rows ++ [r]) else [] := by
      intro r
      rw [ih, List.filter_map, List.map_map]
      cases hon : j.on A rows r with
      | false => simp [Function.comp_def, meets, hon]
      | true => simp [Function.comp_def, meets, hon]
    rw [joinedRows, List.map_cons, tuples, List.filter_flatMap, List.map_flatMap, matching]
    simp only [hrow]
    induction j.table.placed with
    | nil => rfl
    | cons r rs ihr =>
      rw [List.filter_cons, List.flatMap_cons, ← ihr]
      split <;> simp

namespace Query

variable {q₀ q : Query} {N : List Table} {head : Table} {joins : List Joined} {ρ σ : Seen}

theorem innerJoins_eq (q : Query) (head : Table) (joins : List Joined) :
    q.innerJoins A head joins = head.placed.flatMap fun l => q.lines A joins [l] := by
  refine List.flatMap_congr fun l _ => ?_
  rw [lines, joinedRows_eq, List.filter_map, List.map_map, List.filter_filter]
  congr 1
  refine List.filter_congr fun rest _ => ?_
  rw [Bool.and_comm]
  rfl

theorem Ready.setNull {js : List Joined} {i : ℕ} {ts : List Table} (h : Ready A q₀ N js i ts ρ σ q) (ht : q₀.Total A N)
    (hmade : ∀ e ∈ q₀.exprs, setColumnValueNull e = e) : Ready A q₀ N js i ts Seen.nowhere σ q.setNull := by
  refine ⟨?_, h.cond, Seen.of_nowhere N, h.condOf, h.ons⟩
  calc q.setNull.exprs.map some = (q.exprs.map some).map (Option.map setColumnValueNull) := by
        rw [Query.setNull, List.map_map, List.map_map]
        rfl
    _ = q₀.exprs.map fun e => (fill A ρ e).map setColumnValueNull := by rw [h.exprs, List.map_map]; rfl
    _ = q₀.exprs.map (fill A Seen.nowhere) := by
        refine List.map_congr_left fun e he => ?_
        obtain ⟨e', he'⟩ := Option.ne_none_iff_exists'.mp (fill_ne_none ((ht ρ h.exprsOf).1 e he))
        rw [he', Option.map_some, null_fill he', hmade e he, fill_nowhere]

/-- The query as it was made. -/
theorem Evaluable.ready (h : q.Evaluable A head joins) :
    Ready A q (head :: joins.map Joined.table) joins 1 [head] Seen.nowhere Seen.nowhere q := by
  refine ⟨?_, ?_, Seen.of_nowhere _, Seen.of_nowhere _, ?_⟩
  · exact List.map_congr_left fun e _ => (fill_nowhere e).symm
  · cases q.cond with
    | none => rfl
    | some c => exact congrArg some (fill_nowhere c).symm
  · have hons : ∀ (js : List Joined) (i : ℕ) (ts : List Table), (∀ k j, js[k]? = some j → q.ons (i + k) = j.onCond) →
        OnsReset A js i ts q.ons := by
      intro js
      induction js with
      | nil => exact fun _ _ _ => trivial
      | cons j js ih =>
        intro i ts hjs
        refine ⟨fun lt _ => ?_, ih (i + 1) _ fun k j' hk => ?_⟩
        · rw [← hjs 0 j rfl, Nat.add_zero]
          exact Resets.refl _
        · rw [← hjs (k + 1) j' hk, Nat.add_assoc, Nat.add_comm 1 k]
    exact hons joins 1 [head] fun k j hk => by rw [Nat.add_comm, h.onsMade k j hk]

/-- A row of the first table. -/
theorem Evaluable.at (h : q.Evaluable A head joins) {l : Placed} (hl : l ∈ head.placed) :
    At A (head :: joins.map Joined.table) joins [l] := by
  obtain ⟨rfl, hrow⟩ := mem_placed.mp hl
  exact ⟨rfl, h.names, by simpa using hrow, h.joinsOk⟩

/-- The loop over the second table. -/
theorem Ready.execRow {j : Joined} {js : List Joined} {l : Placed} (h : Ready A q₀ N (j :: js) 1 [head] ρ σ q) (ht : q₀.Total A N)
    (hat : At A N (j :: js) [l]) (hl : l ∈ head.placed) : ∃ fgn q', j.foreign head = some fgn ∧
      execRow A j js fgn l q = some q' ∧
      Ready A q₀ N (j :: js) 1 [head] (ρ.overlay ((tried A j js l).map Placed.view)) (σ.overlay ((tried A j js l).map Placed.view)) q' ∧
      Puts 1 (q₀.lines A (j :: js) [l]) q q' := by
  obtain ⟨rfl, hrow⟩ := mem_placed.mp hl
  obtain ⟨⟨lt, hlt, hok⟩, -⟩ := hat.joins
  rw [List.getElem?_map] at hlt
  obtain ⟨l', hl', rfl⟩ := Option.map_eq_some_iff.mp hlt
  obtain rfl := List.mem_singleton.mp (List.mem_of_getElem? hl')
  obtain ⟨fgn, cand, hfgn, hcand, hplaced, hmatch⟩ := hok.candidates hl' hrow
  have hnames : ∀ r ∈ j.table.placed, l'.1.name ≠ r.1.name := by
    intro r hr
    have hn := (hat.next hr).rowNames
    simpa using hn
  have hloop : Loop A q₀ N j js 1 [l'] (fun _ => True) (fun r => [l', r]) (fun r => setColumnValues A (Placed.view l') r.view)
      (fun r => execJoin A js 2 [l', r]) :=
    { set := fun r hr ρ c c' hρ hne hc => by
        have hset : (ρ.set (Placed.view l')).Of N := hρ.set (hat.sub List.mem_cons_self) hrow
        obtain ⟨c'', hc''⟩ := Option.ne_none_iff_exists'.mp (hne _ hset)
        rw [setColumnValues_eq (hnames r hr), setColumnValue_fill hc, hc'']
        exact setColumnValue_fill hc''
      mem := fun r hr p hp => ⟨(hat.next hr).sub hp, (hat.next hr).mem p hp⟩
      covers := fun r hr ρ _ => Seen.covers_over (hat.next hr).rowNames
      keeps := fun _ _ _ _ => trivial
      next := fun r hr => execJoin_runs ht (hat.next hr) }
  obtain ⟨q', hrun, hq', hputs⟩ := hloop.run ht hok hl' hrow hplaced h trivial trivial
  rw [hmatch] at hq' hputs
  refine ⟨fgn, q', hfgn, ?_, hq', Query.lines_cons q₀ j js [l'] ▸ hputs⟩
  rw [Dml.execRow, hcand]
  exact hrun

/-- A row of the first table, with an inner join. -/
theorem Ready.execInnerJoin0 {j : Joined} {js : List Joined} {l : Placed} (h : Ready A q₀ N (j :: js) 1 [head] ρ σ q)
    (ht : q₀.Total A N) (hmade : ∀ e ∈ q₀.exprs, setColumnValueNull e = e) (hat : At A N (j :: js) [l]) (hl : l ∈ head.placed) :
    ∃ fgn ρ' σ' q', j.foreign head = some fgn ∧ execInnerJoin0 A j js fgn l q = some q' ∧
      Ready A q₀ N (j :: js) 1 [head] ρ' σ' q' ∧ q'.output = q.output ++ q₀.lines A (j :: js) [l] := by
  obtain ⟨fgn, q', hfgn, hrun, hq', hputs⟩ := (h.setNull ht hmade).execRow ht hat hl
  exact ⟨fgn, _, _, q', hfgn, hrun, hq', hputs.output⟩

/-- A row of the first table, with a left join. -/
theorem Ready.execLeftJoin0 {j : Joined} {js : List Joined} {l : Placed} (h : Ready A q₀ N (j :: js) 1 [head] ρ σ q)
    (ht : q₀.Total A N) (hmade : ∀ e ∈ q₀.exprs, setColumnValueNull e = e) (hat : At A N (j :: js) [l]) (hl : l ∈ head.placed)
    (haveInner : Bool) :
    ∃ fgn ρ' σ' q', j.foreign head = some fgn ∧ execLeftJoin0 A haveInner j js fgn l q = some q' ∧
      Ready A q₀ N (j :: js) 1 [head] ρ' σ' q' ∧
      q'.output = q.output ++ if q₀.lines A (j :: js) [l] = [] ∧ haveInner = false then [q₀.leftLine A j js l]
        else q₀.lines A (j :: js) [l] := by
  have hq := h.setNull ht hmade
  have hq1 : Ready A q₀ N (j :: js) 1 [head] Seen.nowhere σ { q.setNull with didOutput := false } :=
    ⟨hq.exprs, hq.cond, hq.exprsOf, hq.condOf, hq.ons⟩
  obtain ⟨fgn, q', hfgn, hrun, hq', hputs⟩ := hq1.execRow ht hat hl
  have hdid : q'.didOutput = !(q₀.lines A (j :: js) [l]).isEmpty := by rw [hputs.didOutput, Bool.false_or]
  have hiff : (!q'.didOutput && !haveInner) = true ↔ q₀.lines A (j :: js) [l] = [] ∧ haveInner = false := by
    rw [hdid, Bool.not_not, Bool.and_eq_true, List.isEmpty_iff, Bool.not_eq_true']
  by_cases hext : q₀.lines A (j :: js) [l] = [] ∧ haveInner = false
  · have hmem : l.1 ∈ N ∧ l.2 ∈ l.1.rows := ⟨hat.sub List.mem_cons_self, hat.mem l List.mem_cons_self⟩
    have hset : ∀ e ∈ q₀.exprs, (fill A (Seen.nowhere.overlay ((tried A j js l).map Placed.view)) e).bind (setColumnValue A l.view) =
        fill A ((Seen.nowhere.overlay ((tried A j js l).map Placed.view)).set l.view) e := by
      intro e he
      obtain ⟨e', he'⟩ := Option.ne_none_iff_exists'.mp (fill_ne_none ((ht _ hq'.exprsOf).1 e he))
      rw [he']
      exact setColumnValue_fill he'
    obtain ⟨es, hes, hmap⟩ := mapM_filled hq'.exprs hset
      fun e he => fill_ne_none ((ht _ (hq'.exprsOf.set hmem.1 hmem.2)).1 e he)
    have hq2 : Ready A q₀ N (j :: js) 1 [head] ((Seen.nowhere.overlay ((tried A j js l).map Placed.view)).set l.view)
        (σ.overlay ((tried A j js l).map Placed.view)) { q' with exprs := es } :=
      ⟨hmap, hq'.cond, hq'.exprsOf.set hmem.1 hmem.2, hq'.condOf, hq'.ons⟩
    obtain ⟨q'', hout, hq'', hputs'⟩ := hq2.outputExprList ht
    refine ⟨fgn, _, _, q'', hfgn, ?_, hq'', ?_⟩
    · rw [Dml.execLeftJoin0, hrun]
      simp only [Option.bind_eq_bind, Option.bind_some, if_pos (hiff.mpr hext), hes, hout]
    · rw [if_pos hext, hputs'.output]
      show q'.output ++ _ = _
      rw [hputs.output, hext.1, List.append_nil]
      rfl
  · refine ⟨fgn, _, _, q', hfgn, ?_, hq', ?_⟩
    · rw [Dml.execLeftJoin0, hrun]
      simp only [Option.bind_eq_bind, Option.bind_some, if_neg fun h => hext (hiff.mp h)]
    · rw [if_neg hext, hputs.output]
      rfl

/-- A row of the only table. -/
theorem Ready.execQuery {l : Placed} (h : Ready A q₀ N [] 1 [head] ρ σ q) (ht : q₀.Total A N)
    (hmade : ∀ e ∈ q₀.exprs, setColumnValueNull e = e) (hat : At A N [] [l]) :
    ∃ ρ' σ' q', execQuery A l q = some q' ∧ Ready A q₀ N [] 1 [head] ρ' σ' q' ∧ q'.output = q.output ++ q₀.lines A [] [l] := by
  have hmem : l.1 ∈ N ∧ l.2 ∈ l.1.rows := ⟨hat.sub List.mem_cons_self, hat.mem l List.mem_cons_self⟩
  have hN : N = [l].map Prod.fst := hat.tables
  have hfill : ∀ (ρ : Seen) c c', ρ.Of N → (∀ σ, σ.Of N → fill A σ c ≠ none) → fill A ρ c = some c' →
      setColumnValue A l.view c' = fill A (ρ.overlay [l.view]) c := fun ρ c c' _ _ hc => setColumnValue_fill hc
  obtain ⟨q1, hset, hq1, hputs⟩ := (h.setNull ht hmade).setValues ht hfill fun ρ hρ => hρ.set hmem.1 hmem.2
  have hseen : ∀ ρ : Seen, (ρ.overlay [l.view]).Of N → ρ.overlay [l.view] = seen [l] := by
    intro ρ hρ
    have hcov : (ρ.overlay [l.view]).Covers [l] := Seen.covers_over hat.rowNames
    exact hcov.eq_seen (hN ▸ hρ) hat.rowNames hat.mem
  rw [hseen _ hq1.exprsOf, hseen _ hq1.condOf] at hq1
  obtain ⟨q2, hrun, hq2, hputs2⟩ := hq1.execWhere ht
  refine ⟨_, _, q2, ?_, hq2, ?_⟩
  · rw [Dml.execQuery, hset]
    exact hrun
  · rw [hputs2.output, hputs.output, List.append_nil]
    rfl

/-- The loop over the first table. -/
theorem foldHead {step : Query → Placed → Option Query} {out : Placed → List (List Text)} {rows : List Placed}
    (hstep : ∀ l ∈ rows, ∀ ρ σ q, Ready A q₀ N joins 1 [head] ρ σ q → ∃ ρ' σ' q', step q l = some q' ∧
      Ready A q₀ N joins 1 [head] ρ' σ' q' ∧ q'.output = q.output ++ out l)
    (h : Ready A q₀ N joins 1 [head] ρ σ q) :
    (rows.foldlM step q).map Query.output = some (q.output ++ rows.flatMap out) := by
  induction rows generalizing ρ σ q with
  | nil => simp
  | cons l rows ih =>
    obtain ⟨ρ', σ', q', hq', h', hout⟩ := hstep l List.mem_cons_self ρ σ q h
    rw [List.foldlM_cons, hq']
    rw [List.flatMap_cons, ← List.append_assoc, ← hout]
    exact ih (fun l hl => hstep l (List.mem_cons_of_mem _ hl)) h'

/-- All joins, with the line of a row of the first table for which nothing else is put out. -/
theorem Evaluable.select {j : Joined} {js : List Joined} (h : q.Evaluable A head (j :: js)) (haveInner : Bool) :
    (select A haveInner head (j :: js) q).map Query.output = some (q.output ++ head.placed.flatMap fun l =>
      if j.isLeft = true ∧ q.lines A (j :: js) [l] = [] ∧ haveInner = false then [q.leftLine A j js l]
      else q.lines A (j :: js) [l]) := by
  have hfgn : ∃ fgn, j.foreign head = some fgn := by
    obtain ⟨⟨lt, hlt, hok⟩, -⟩ := h.joinsOk
    obtain rfl := List.mem_singleton.mp (List.mem_of_getElem? hlt)
    cases hname : j.fgnName with
    | none => exact ⟨none, by rw [Joined.foreign, hname]⟩
    | some name =>
      obtain ⟨-, fgn, hf, -⟩ := hok.index name hname
      refine ⟨some fgn, ?_⟩
      rw [Joined.foreign, hname]
      simp only [hf, Option.map_some]
  obtain ⟨fgn, hfgn⟩ := hfgn
  rw [Dml.select]
  simp only [hfgn, Option.bind_eq_bind, Option.bind_some]
  refine foldHead (fun l hl ρ σ q' hq' => ?_) h.ready
  cases hj : j.isLeft with
  | false =>
    obtain ⟨fgn', ρ', σ', q'', hfgn', hrun, hq'', hout⟩ := hq'.execInnerJoin0 h.total h.exprsMade (h.at hl) hl
    obtain rfl := Option.some.inj (hfgn.symm.trans hfgn')
    exact ⟨ρ', σ', q'', hrun, hq'', by simpa using hout⟩
  | true =>
    obtain ⟨fgn', ρ', σ', q'', hfgn', hrun, hq'', hout⟩ := hq'.execLeftJoin0 h.total h.exprsMade (h.at hl) hl haveInner
    obtain rfl := Option.some.inj (hfgn.symm.trans hfgn')
    exact ⟨ρ', σ', q'', hrun, hq'', by simpa using hout⟩

/-- A table alone. -/
theorem Evaluable.select_one (h : q.Evaluable A head []) (haveInner : Bool) :
    (Dml.select A haveInner head [] q).map Query.output = some (q.output ++ head.placed.flatMap fun l => q.lines A [] [l]) :=
  foldHead (fun _ hl _ _ _ hq' => hq'.execQuery h.total h.exprsMade (h.at hl)) h.ready

end Query

/-! ### A query of two tables -/

/-- Two rows that refer to the same row. -/
def twoReferring : Table := referringTable .varchar 1 [['a'], ['a']]

/-- The row they refer to and another one. -/
def twoReferred : Table := referredTable .varchar 1 [['a'], ['b']]

/-- The column `id`. -/
def idItem (n : Name) : Cond := .column n "id".toList .varchar false []

/-- `JOIN p ON c.id = p.id`, with the index or without it. -/
def joinedOnId (isLeft : Bool) (fgnName : Option Text) : Joined :=
  { table := twoReferred, isLeft, prev := 0, fgnName, onCond := (onId .varchar).cond }

/-- `SELECT c.id, p.id FROM c ... WHERE p.id = '...'` -/
def selectId (value : Text) : Query :=
  { exprs := [idItem ("d".toList, "c".toList), idItem ("d".toList, "p".toList)]
    cond := some (.op (.cmp .eq) (idItem ("d".toList, "p".toList)) (.value .varchar value))
    ons := fun _ => (onId .varchar).cond, didOutput := false, output := [] }

theorem fill_idItem {ρ : Seen} (h : ρ.Of [twoReferring, twoReferred]) (n : Name) :
    ∃ value, fill wholeNumbers ρ (idItem n) = some (.column n "id".toList .varchar false value) := by
  rw [idItem, fill]
  cases hv : ρ n with
  | none => exact ⟨[], rfl⟩
  | some v =>
    obtain ⟨t, ht, -, r, hr, rfl⟩ := h n v hv
    rcases List.mem_pair.mp ht with rfl | rfl
    · rcases List.mem_pair.mp (show r ∈ [_, _] from hr) with rfl | rfl <;> exact ⟨_, rfl⟩
    · rcases List.mem_pair.mp (show r ∈ [_, _] from hr) with rfl | rfl <;> exact ⟨_, rfl⟩

theorem selectId_total (value : Text) :
    (selectId value).Total wholeNumbers [twoReferring, twoReferred] := by
  intro ρ hρ
  refine ⟨fun e he => ?_, fun c hc => ?_⟩
  · have hid : ∃ n, e = idItem n := by
      rcases List.mem_cons.mp he with rfl | he
      · exact ⟨_, rfl⟩
      · exact ⟨_, List.mem_singleton.mp he⟩
    obtain ⟨n, rfl⟩ := hid
    obtain ⟨x, hx⟩ := fill_idItem hρ n
    rw [evalAt, hx]
    exact Option.some_ne_none _
  · obtain rfl := Option.some.inj hc
    obtain ⟨x, hx⟩ := fill_idItem hρ ("d".toList, "p".toList)
    rw [evalAt, fill, hx]
    simp only [fill, Option.bind_eq_bind, Option.bind_some, execCondition]
    split
    · exact Option.some_ne_none _
    · split <;> exact Option.some_ne_none _

theorem twoReferred_wf : twoReferred.Wf :=
  ⟨⟨by decide, by decide, by decide, by decide, by decide⟩, ⟨_, rfl, rfl⟩⟩

theorem joinedOnId_ok (isLeft : Bool) (fgnName : Option Text) (hf : fgnName = none ∨ fgnName = some "FGN_000".toList) :
    (joinedOnId isLeft fgnName).Ok wholeNumbers twoReferring := by
  have hholds : ∀ l ∈ twoReferring.rows, ∀ r ∈ twoReferred.rows,
      holds wholeNumbers twoReferring twoReferred (onId .varchar).cond l r ≠ none := by
    decide
  refine ⟨hholds, fun name hname => ⟨twoReferred_wf, ?_⟩⟩
  rcases hf with rfl | rfl
  · cases hname
  · obtain rfl := Option.some.inj hname
    refine ⟨_, rfl, ?_⟩
    unfold LooksUp
    cases isLeft <;> decide

theorem selectId_evaluable (value : Text) (isLeft : Bool) (fgnName : Option Text) (hf : fgnName = none ∨ fgnName = some "FGN_000".toList) :
    (selectId value).Evaluable wholeNumbers twoReferring [joinedOnId isLeft fgnName] where
  exprsMade e he := by
    rcases List.mem_cons.mp he with rfl | he
    · rfl
    · obtain rfl := List.mem_singleton.mp he
      rfl
  condMade c hc := by
    obtain rfl := Option.some.inj hc
    rfl
  onsMade i j hj := by
    rcases i with _ | i
    · obtain rfl := Option.some.inj hj
      rfl
    · cases hj
  names := by
    show [("d".toList, "c".toList), ("d".toList, "p".toList)].Nodup
    decide
  joinsOk := ⟨⟨_, rfl, joinedOnId_ok isLeft fgnName hf⟩, trivial⟩
  total := selectId_total value

/-! ### Queries -/

/-- If the query has been written with an inner join, or the first join of the list is an inner one, or there is none, then what
is put out is the inner join of all tables. The list of tables is the one that `make_query` leaves; how values are formatted and
the keys of ORDER BY, which come later, are left out here and below. -/
theorem select_inner (A : Arith) (haveInner : Bool) (head : Table) (joins : List Joined) (q : Query) (h : q.Evaluable A head joins)
    (hj : ∀ j ∈ joins.head?, j.isLeft = true → haveInner = true) :
    (select A haveInner head joins q).map Query.output = some (q.output ++ q.innerJoins A head joins) := by
  rw [Query.innerJoins_eq]
  cases joins with
  | nil => exact h.select_one haveInner
  | cons j js =>
    rw [h.select]
    refine congrArg (fun x => some (q.output ++ x)) (List.flatMap_congr fun l _ => if_neg ?_)
    rintro ⟨hleft, -, hnone⟩
    rw [hj j rfl hleft] at hnone
    cases hnone

theorem select_inner_index :
    (select wholeNumbers true twoReferring [joinedOnId false (some "FGN_000".toList)] (selectId ['a'])).map
        Query.output =
      some ([] ++ (selectId ['a']).innerJoins wholeNumbers twoReferring
        [joinedOnId false (some "FGN_000".toList)]) :=
  select_inner wholeNumbers true twoReferring [joinedOnId false (some "FGN_000".toList)] (selectId ['a'])
    (selectId_evaluable ['a'] false _ (.inr rfl)) (fun _ _ _ => rfl)

/-- If the query has been written without an inner join and the first join of the list is a left one, as it is where all of them
are, a row of the first table for which no joined row is accepted gives one line, in which the rows that were tried last may be
seen. -/
theorem select_left (A : Arith) (head : Table) (j : Joined) (js : List Joined) (q : Query) (h : q.Evaluable A head (j :: js))
    (hj : j.isLeft = true) :
    (select A false head (j :: js) q).map Query.output = some (q.output ++ head.placed.flatMap fun l =>
      if q.lines A (j :: js) [l] = [] then [q.leftLine A j js l] else q.lines A (j :: js) [l]) := by
  rw [h.select]
  simp only [hj, true_and, and_true]

theorem select_left_rejected :
    (select wholeNumbers false twoReferring [joinedOnId true none] (selectId ['b'])).map Query.output =
      some ([] ++ twoReferring.placed.flatMap fun l =>
        if (selectId ['b']).lines wholeNumbers [joinedOnId true none] [l] = [] then
          [(selectId ['b']).leftLine wholeNumbers (joinedOnId true none) [] l]
        else (selectId ['b']).lines wholeNumbers [joinedOnId true none] [l]) :=
  select_left wholeNumbers twoReferring (joinedOnId true none) [] (selectId ['b'])
    (selectId_evaluable ['b'] true none (.inl rfl)) rfl

theorem length_flatMap_le {α β : Type} {f g : α → List β} {l : List α} (h : ∀ a ∈ l, (g a).length ≤ (f a).length) :
    (l.flatMap g).length ≤ (l.flatMap f).length := by
  induction l with
  | nil => exact le_rfl
  | cons a l ih =>
    rw [List.forall_mem_cons] at h
    rw [List.flatMap_cons, List.flatMap_cons, List.length_append, List.length_append]
    exact Nat.add_le_add h.1 (ih h.2)

theorem flatMap_eq_iff {α β : Type} {f g : α → List β} {l : List α} (h : ∀ a ∈ l, (g a).length ≤ (f a).length) :
    l.flatMap f = l.flatMap g ↔ ∀ a ∈ l, f a = g a := by
  induction l with
  | nil => simp
  | cons a l ih =>
    rw [List.forall_mem_cons] at h ⊢
    have hle := length_flatMap_le h.2
    rw [List.flatMap_cons, List.flatMap_cons, ← ih h.2]
    constructor
    · intro he
      have hlen := congrArg List.length he
      rw [List.length_append, List.length_append] at hlen
      exact List.append_inj he (by omega)
    · rintro ⟨ha, hl⟩
      rw [ha, hl]

/-- The left join of two tables is right if and only if no row of the first table loses all its matches to the WHERE condition, and
every one without a match meets it alone. -/
theorem select_left_iff (A : Arith) (head : Table) (j : Joined) (q : Query) (h : q.Evaluable A head [j]) (hj : j.isLeft = true) :
    (select A false head [j] q).map Query.output = some (q.output ++ q.leftJoin A head j) ↔
      ∀ l ∈ head.placed,
        if matching A j [l] = [] then q.accepts A [l] = true else ∃ r ∈ matching A j [l], q.accepts A [l, r] = true := by
  have hlines : ∀ l, q.lines A [j] [l] =
      (((matching A j [l]).map fun r => [l, r]).filter (q.accepts A)).map fun rows => q.line A (seen rows) := by
    intro l
    have hpairs : joinedRows A [j] [l] = (matching A j [l]).map fun r => [l, r] := List.map_eq_flatMap.symm
    rw [Query.lines, hpairs]
  have hnil : ∀ l, q.lines A [j] [l] = [] ↔ ∀ r ∈ matching A j [l], q.accepts A [l, r] = false := by
    intro l
    rw [hlines, List.map_eq_nil_iff, List.filter_eq_nil_iff, List.forall_mem_map]
    simp only [Bool.not_eq_true]
  rw [h.select, Option.some.injEq, List.append_right_inj, Query.leftJoin]
  simp only [hj, true_and, and_true]
  rw [flatMap_eq_iff]
  · refine forall₂_congr fun l _ => ?_
    by_cases hm : matching A j [l] = []
    · have hempty : q.lines A [j] [l] = [] := by
        rw [hnil, hm]
        simp
      have hline : q.leftLine A j [] l = q.line A (seen [l]) := by
        rw [Query.leftLine, Query.tried, hm]
        rfl
      rw [if_pos hempty, if_pos hm, if_pos hm, hline, List.filter_singleton]
      cases q.accepts A [l] <;> simp
    · rw [if_neg hm, if_neg hm, ← hlines]
      by_cases hempty : q.lines A [j] [l] = []
      · rw [if_pos hempty, hempty]
        rw [hnil] at hempty
        constructor
        · intro he
          cases he
        · rintro ⟨r, hr, hacc⟩
          rw [hempty r hr] at hacc
          cases hacc
      · rw [if_neg hempty]
        rw [hnil] at hempty
        push Not at hempty
        simpa using hempty
  · intro l _
    by_cases hm : matching A j [l] = []
    · rw [if_pos hm]
      have hempty : q.lines A [j] [l] = [] := by
        rw [hnil, hm]
        simp
      rw [if_pos hempty, List.length_map]
      exact List.length_filter_le _ _
    · rw [if_neg hm, ← hlines]
      split
      next hempty =>
        rw [hempty]
        exact Nat.zero_le _
      next => exact le_rfl

theorem select_left_accepted :
    (select wholeNumbers false twoReferring [joinedOnId true none] (selectId ['a'])).map Query.output =
      some ([] ++ (selectId ['a']).leftJoin wholeNumbers twoReferring (joinedOnId true none)) :=
  (select_left_iff wholeNumbers twoReferring (joinedOnId true none) (selectId ['a'])
    (selectId_evaluable ['a'] true none (.inl rfl)) rfl).mpr (by decide)

end RedB.Dml
