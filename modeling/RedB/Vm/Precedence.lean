import RedB.Tran.Syntax
import RedB.Vm.Expr
import Mathlib.Logic.Function.Iterate

/-!
# What an expression is built into

The instructions of an expression leave one item. It is the tree of the expression as SQL
reads it, `AND` before `OR`, unless one parenthesis level has both, or a minus sign is one
too many for the mark of a column, or a float does not survive being written with two
decimals (`logicExpr_leaves_tree_iff`).
-/

namespace RedB.Tran.Syn

/-! ### The expression as SQL reads it -/

/-- The connectives outside of parentheses. -/
def level : Syn → List Op
  | bin op _ l r => if op = .and ∨ op = .or then op :: (l.level ++ r.level) else []
  | _ => []

/-- No parenthesis level has both `AND` and `OR`. -/
def Unmixed : Syn → Prop
  | paren _ e _ | sign _ e => e.Unmixed
  | bin op tok l r => ¬(.and ∈ (bin op tok l r).level ∧ .or ∈ (bin op tok l r).level) ∧ l.Unmixed ∧ r.Unmixed
  | _ => True

/-- `a AND b`, with `AND` before the `OR`s of both. -/
def andJoin (tok : Token) (a : Syn) : Syn → Syn
  | bin .or t b1 b2 => bin .or t (andJoin tok a b1) b2
  | b =>
      match a with
      | bin .or t a1 a2 => bin .or t a1 (bin .and tok a2 b)
      | a => bin .and tok a b

/-- An expression of the translator, as SQL reads it. -/
def sql : Syn → Syn
  | paren l e r => paren l e.sql r
  | sign tok e => sign tok e.sql
  | bin .and tok l r => andJoin tok l.sql r.sql
  | bin op tok l r => bin op tok l.sql r.sql
  | e => e

theorem sql_bin {op : Op} {tok : Token} {l r : Syn} (h : op ≠ .and) : (bin op tok l r).sql = bin op tok l.sql r.sql := by
  rw [sql]
  exact fun e => h e

/-- Not an `OR`. -/
def NotOr (e : Syn) : Prop := ∀ tok l r, e ≠ bin .or tok l r

theorem andJoin_of_notOr {tok : Token} {a b : Syn} (ha : a.NotOr) (hb : b.NotOr) : andJoin tok a b = bin .and tok a b := by
  unfold andJoin
  split
  · exact absurd rfl (hb _ _ _)
  · split
    · exact absurd rfl (ha _ _ _)
    · rfl

theorem andJoin_right (tok t : Token) (a b1 b2 : Syn) : andJoin tok a (bin .or t b1 b2) = bin .or t (andJoin tok a b1) b2 := rfl

theorem andJoin_left {tok t : Token} {a1 a2 b : Syn} (hb : b.NotOr) :
    andJoin tok (bin .or t a1 a2) b = bin .or t a1 (bin .and tok a2 b) := by
  unfold andJoin
  split
  · exact absurd rfl (hb _ _ _)
  · rfl

theorem or_or_notOr (e : Syn) : (∃ tok l r, e = bin .or tok l r) ∨ e.NotOr := by
  by_cases h : ∃ tok l r, e = bin .or tok l r
  · exact .inl h
  · exact .inr fun tok l r he => h ⟨tok, l, r, he⟩

/-- What holds of `a AND b`, by what the two sides look like. -/
theorem andJoin_induction {p : Syn → Syn → Prop} {tok : Token} {a : Syn}
    (hright : ∀ t b1 b2, p b1 (andJoin tok a b1) → p (bin .or t b1 b2) (bin .or t (andJoin tok a b1) b2))
    (hleft : ∀ t a1 a2 b, a = bin .or t a1 a2 → b.NotOr → p b (bin .or t a1 (bin .and tok a2 b)))
    (hboth : ∀ b, a.NotOr → b.NotOr → p b (bin .and tok a b)) (b : Syn) : p b (andJoin tok a b) := by
  have hnot : ∀ b : Syn, b.NotOr → p b (andJoin tok a b) := by
    intro b hb
    rcases a.or_or_notOr with ⟨t, a1, a2, rfl⟩ | ha
    · rw [andJoin_left hb]
      exact hleft t a1 a2 b rfl hb
    · rw [andJoin_of_notOr ha hb]
      exact hboth b ha hb
  induction b with
  | bin op t b1 b2 ih1 _ =>
    by_cases hop : op = .or
    · subst hop
      exact hright t b1 b2 ih1
    · exact hnot _ fun _ _ _ e => hop (by cases e; rfl)
  | _ => exact hnot _ fun _ _ _ e => by cases e

theorem tokens_andJoin (tok : Token) (a b : Syn) : (andJoin tok a b).tokens = a.tokens ++ tok :: b.tokens := by
  refine andJoin_induction (p := fun b e => e.tokens = a.tokens ++ tok :: b.tokens) ?_ ?_ ?_ b
  · intro t b1 b2 ih
    rw [tokens, ih, tokens, List.append_assoc, List.cons_append]
  · rintro t a1 a2 b rfl -
    simp [tokens]
  · intro b _ _
    rfl

/-- The tokens stay as they are. -/
theorem tokens_sql (e : Syn) : e.sql.tokens = e.tokens := by
  induction e with
  | paren l e r ih => rw [sql, tokens, ih, tokens]
  | sign tok e ih => rw [sql, tokens, ih, tokens]
  | bin op tok l r ihl ihr =>
    by_cases hop : op = .and
    · subst hop
      rw [sql, tokens_andJoin, ihl, ihr, tokens]
    · rw [sql_bin hop, tokens, ihl, ihr, tokens]
  | _ => rfl

/-! ### It is an expression of SQL -/

theorem sqlOps_eq {n : ℕ} (h : n ≤ 4) : sqlOps n = codeOps n := by
  match n, h with
  | 0, _ | 1, _ | 2, _ | 3, _ | 4, _ => rfl

theorem Derives.mono {ops : ℕ → Ty → Option Op} {n m : ℕ} {e : Syn} (h : e.Derives ops n) (hm : n ≤ m) : e.Derives ops m := by
  induction hm with
  | refl => exact h
  | step _ ih => exact ih.up

/-- The level of an operator in SQL. -/
def sqlLevel : Op → ℕ
  | .and => 5
  | .or => 6
  | op => opLevel op

theorem sqlOps_level {n : ℕ} {type : Ty} {op : Op} (h : sqlOps n type = some op) : sqlLevel op = n := by
  by_cases hn : n ≤ 4
  · rw [sqlOps_eq hn] at h
    have := codeOps_level h
    cases op <;> simp_all [opLevel, sqlLevel] <;> omega
  · unfold sqlOps at h
    split at h
    case h_5 | h_6 =>
      dsimp only at h
      split at h <;> first | (obtain rfl := Option.some.inj h; rfl) | cases h
    case h_7 => cases h
    all_goals omega

/-- What the `OR`s of the translator are, as SQL reads them. -/
inductive OrChain : Syn → Prop where
  | one {e : Syn} : e.Derives sqlOps 4 → OrChain e
  | or {tok : Token} {l r : Syn} : tok.type = .or → OrChain l → r.Derives sqlOps 4 → OrChain (bin .or tok l r)

theorem OrChain.derives {e : Syn} (h : OrChain e) : e.Derives sqlOps 6 := by
  induction h with
  | one h => exact h.mono (by decide)
  | or ht _ hr ih => exact .bin (n := 5) (by rw [ht]; rfl) ih hr.up

/-- An operator of SQL stands on its level. -/
theorem Derives.bin_inv {n : ℕ} {op : Op} {tok : Token} {l r : Syn} (h : (Syn.bin op tok l r).Derives sqlOps n) (hn : sqlLevel op = n) :
    ∃ m, n = m + 1 ∧ l.Derives sqlOps n ∧ r.Derives sqlOps m := by
  cases h with
  | @up m _ h =>
    obtain ⟨k, hk, hop⟩ := h.level
    have := sqlOps_level hop
    omega
  | @bin m _ _ _ _ hop hl hr => exact ⟨m, rfl, hl, hr⟩

theorem OrChain.or_inv {tok : Token} {l r : Syn} (h : OrChain (bin .or tok l r)) : OrChain l ∧ tok.type = .or ∧ r.Derives sqlOps 4 := by
  cases h with
  | one h =>
    obtain ⟨k, hk, hop⟩ := h.level
    have : sqlLevel .or = k := sqlOps_level hop
    simp only [sqlLevel] at this
    omega
  | or ht hl hr => exact ⟨hl, ht, hr⟩

theorem OrChain.notOr {e : Syn} (h : OrChain e) (hn : e.NotOr) : e.Derives sqlOps 4 := by
  cases h with
  | one h => exact h
  | or => exact absurd rfl (hn _ _ _)

theorem Derives.notOr {e : Syn} (h : e.Derives sqlOps 6) (hn : e.NotOr) : e.Derives sqlOps 5 := by
  cases h with
  | up h => exact h
  | @bin _ op tok _ _ hop hl hr =>
    have : sqlLevel op = 6 := sqlOps_level hop
    have hor : op = .or := by cases op <;> simp_all [sqlLevel, opLevel]
    subst hor
    exact absurd rfl (hn _ _ _)

theorem derives_andJoin {tok : Token} (ht : tok.type = .and) {a b : Syn} (ha : a.Derives sqlOps 6) (hb : OrChain b) :
    (andJoin tok a b).Derives sqlOps 6 := by
  have hand : sqlOps (4 + 1) tok.type = some .and := by
    rw [ht]
    rfl
  refine andJoin_induction (p := fun b e => OrChain b → e.Derives sqlOps 6) ?_ ?_ ?_ b hb
  · intro t b1 b2 ih h
    obtain ⟨h1, ht', h2⟩ := h.or_inv
    exact .bin (n := 5) (by rw [ht']; rfl) (ih h1) h2.up
  · rintro t a1 a2 b rfl hnot h
    obtain ⟨m, hm, h1, h2⟩ := ha.bin_inv rfl
    obtain rfl : m = 5 := by omega
    have hor : sqlOps (5 + 1) t.type = some .or := by
      cases ha with
      | up h =>
        obtain ⟨k, hk, hop⟩ := h.level
        have : sqlLevel .or = k := sqlOps_level hop
        simp only [sqlLevel] at this
        omega
      | bin hop _ _ => exact hop
    exact .bin hor h1 (.bin hand h2 (h.notOr hnot))
  · intro b hna hnb h
    exact (Derives.bin hand (ha.notOr hna) (h.notOr hnb)).up

/-- The tree of the translator, as SQL reads it, is an expression of SQL. -/
theorem derives_sql {n : ℕ} {e : Syn} (h : e.Derives codeOps n) :
    (n ≤ 4 → e.sql.Derives sqlOps n) ∧ (n = 5 → OrChain e.sql) ∧ (n = 6 → e.sql.Derives sqlOps 6) := by
  induction h with
  | literal ht => exact ⟨fun _ => .literal ht, by omega, by omega⟩
  | null ht => exact ⟨fun _ => .null ht, by omega, by omega⟩
  | column ht => exact ⟨fun _ => .column ht, by omega, by omega⟩
  | tblColumn h1 h2 h3 => exact ⟨fun _ => .tblColumn h1 h2 h3, by omega, by omega⟩
  | star ht => exact ⟨fun _ => .star ht, by omega, by omega⟩
  | tblStar h1 h2 h3 => exact ⟨fun _ => .tblStar h1 h2 h3, by omega, by omega⟩
  | dbStar h1 h2 h3 h4 h5 => exact ⟨fun _ => .dbStar h1 h2 h3 h4 h5, by omega, by omega⟩
  | paren hl _ hr ih => exact ⟨fun _ => .paren hl (ih.2.2 rfl) hr, by omega, by omega⟩
  | sign ht _ ih => exact ⟨fun _ => .sign ht (ih.1 (by omega)), by omega, by omega⟩
  | @up n e _ ih =>
    refine ⟨fun hn => (ih.1 (by omega)).up, fun hn => ?_, fun hn => ?_⟩
    · obtain rfl : n = 4 := by omega
      exact .one (ih.1 (by omega))
    · obtain rfl : n = 5 := by omega
      exact (ih.2.1 rfl).derives
  | @bin n op tok l r hop _ _ ihl ihr =>
    have hlevel := codeOps_level hop
    refine ⟨fun hn => ?_, fun hn => ?_, fun hn => ?_⟩
    · have hsql : (Syn.bin op tok l r).sql = Syn.bin op tok l.sql r.sql := by
        rw [sql]
        rintro rfl
        simp only [opLevel] at hlevel
        omega
      rw [hsql]
      exact .bin (by rw [sqlOps_eq hn]; exact hop) (ihl.1 hn) (ihr.1 (by omega))
    · obtain rfl : n = 4 := by omega
      have hor : op = .or := by cases op <;> simp_all [opLevel]
      subst hor
      have ht : tok.type = .or := by
        simp only [codeOps, logicTermOps] at hop
        split at hop
        · assumption
        · cases hop
      exact .or ht (ihl.2.1 rfl) (ihr.1 (by omega))
    · obtain rfl : n = 5 := by omega
      have hand : op = .and := by cases op <;> simp_all [opLevel]
      subst hand
      have ht : tok.type = .and := by
        simp only [codeOps, logicExprOps] at hop
        split at hop
        · assumption
        · cases hop
      exact derives_andJoin ht (ihl.2.2 rfl) (ihr.2.1 rfl)

/-! ### Connectives -/

theorem mem_level_andJoin {tok : Token} {a b : Syn} {op : Op} :
    op ∈ (andJoin tok a b).level ↔ op = .and ∨ op ∈ a.level ∨ op ∈ b.level := by
  refine andJoin_induction (p := fun b e => op ∈ e.level ↔ op = .and ∨ op ∈ a.level ∨ op ∈ b.level) ?_ ?_ ?_ b
  · intro t b1 b2 ih
    simp only [level, or_true, if_true, List.mem_cons, List.mem_append, ih]
    simp only [or_assoc, or_left_comm]
  · rintro t a1 a2 b rfl -
    simp only [level, or_true, true_or, if_true, List.mem_cons, List.mem_append]
    simp only [or_assoc, or_left_comm]
  · intro b _ _
    simp only [level, true_or, if_true, List.mem_cons, List.mem_append]

theorem mem_level_sql {e : Syn} {op : Op} : op ∈ e.sql.level ↔ op ∈ e.level := by
  induction e with
  | bin o tok l r ihl ihr =>
    by_cases ho : o = .and
    · subst ho
      rw [sql, mem_level_andJoin, ihl, ihr]
      simp [level]
    · have hsql : (bin o tok l r).sql = bin o tok l.sql r.sql := sql_bin ho
      rw [hsql, level, level]
      split
      · simp only [List.mem_cons, List.mem_append, ihl, ihr]
      · rfl
  | _ => rfl

theorem andJoin_or_iff {tok : Token} {a b : Syn} :
    (∃ t l r, andJoin tok a b = bin .or t l r) ↔ (∃ t l r, a = bin .or t l r) ∨ ∃ t l r, b = bin .or t l r := by
  rcases b.or_or_notOr with ⟨t, b1, b2, rfl⟩ | hb
  · simp [andJoin_right]
  · rcases a.or_or_notOr with ⟨t, a1, a2, rfl⟩ | ha
    · simp [andJoin_left hb]
    · rw [andJoin_of_notOr ha hb]
      constructor
      · rintro ⟨t, l, r, h⟩
        cases h
      · rintro (⟨t, l, r, rfl⟩ | ⟨t, l, r, rfl⟩)
        · exact absurd rfl (ha _ _ _)
        · exact absurd rfl (hb _ _ _)

/-- SQL reads an expression as an `OR` if it has one outside of parentheses. -/
theorem or_mem_level {e : Syn} : .or ∈ e.level ↔ ∃ t l r, e.sql = bin .or t l r := by
  induction e with
  | bin o tok l r ihl ihr =>
    by_cases ho : o = .and
    · subst ho
      rw [sql, andJoin_or_iff, ← ihl, ← ihr]
      simp [level]
    · have hsql : (bin o tok l r).sql = bin o tok l.sql r.sql := sql_bin ho
      rw [hsql, level]
      by_cases hor : o = .or
      · subst hor
        simp
      · simp [ho, hor]
  | _ => simp [level, sql]

theorem notOr_sql {e : Syn} (h : .or ∉ e.level) : e.sql.NotOr := fun t l r he => h (or_mem_level.mpr ⟨t, l, r, he⟩)

/-- Below `AND` there is none, but for what stands in parentheses. -/
theorem Derives.and_not_mem {n : ℕ} {e : Syn} (h : e.Derives codeOps n) (hn : n ≤ 5) : .and ∉ e.level := by
  induction h with
  | up _ ih => exact ih (by omega)
  | @bin n op tok l r hop _ _ ihl ihr =>
    have hlevel := codeOps_level hop
    have hne : op ≠ .and := by
      rintro rfl
      simp only [opLevel] at hlevel
      omega
    rw [Syn.level]
    split
    · simp only [List.mem_cons, List.mem_append, not_or]
      exact ⟨hne.symm, ihl hn, ihr (by omega)⟩
    · exact List.not_mem_nil
  | _ => exact List.not_mem_nil

theorem and_mem_level {e : Syn} (h : e.Derives codeOps 6) : .and ∈ e.level ↔ ∃ op tok l r, e = bin op tok l r ∧ logicExprOps tok.type = some op := by
  constructor
  · intro hm
    cases h with
    | up h => exact absurd hm (h.and_not_mem (by decide))
    | bin hop _ _ => exact ⟨_, _, _, _, rfl, hop⟩
  · rintro ⟨op, tok, l, r, rfl, hop⟩
    have : opLevel op = 6 := codeOps_level (n := 6) hop
    have : op = .and := by cases op <;> simp_all [opLevel]
    subst this
    simp [level]

theorem unmixed_sql (e : Syn) : e.sql.Unmixed ↔ e.Unmixed := by
  induction e with
  | paren l e r ih => exact ih
  | sign tok e ih => exact ih
  | bin o tok l r ihl ihr =>
    by_cases ho : o = .and
    · subst ho
      have hlev : (bin .and tok l r).level = .and :: (l.level ++ r.level) := by simp [level]
      by_cases hor : .or ∈ l.level ∨ .or ∈ r.level
      · -- both sides are mixed here
        have hr : ¬(bin .and tok l r).Unmixed := fun h => h.1 ⟨by simp [hlev], by simpa [hlev] using hor⟩
        have hl : ¬(bin .and tok l r).sql.Unmixed := by
          have hmem : ∀ op, op ∈ (bin .and tok l r).sql.level ↔ op ∈ (bin .and tok l r).level := fun op => mem_level_sql
          obtain ⟨t, a, b, he⟩ := or_mem_level.mp (show .or ∈ (bin .and tok l r).level by simpa [hlev] using hor)
          rw [he] at hmem ⊢
          exact fun h => h.1 ⟨(hmem _).mpr (by simp [hlev]), by simp [level]⟩
        exact iff_of_false hl hr
      · rw [not_or] at hor
        rw [sql, andJoin_of_notOr (notOr_sql hor.1) (notOr_sql hor.2), Unmixed, Unmixed, ihl, ihr]
        simp only [level, true_or, if_true, List.mem_cons, List.mem_append, mem_level_sql]
    · have hsql : (bin o tok l r).sql = bin o tok l.sql r.sql := sql_bin ho
      rw [hsql, Unmixed, Unmixed, ihl, ihr]
      have hmem : ∀ op, op ∈ (bin o tok l.sql r.sql).level ↔ op ∈ (bin o tok l r).level := by
        intro op
        rw [← hsql]
        exact mem_level_sql
      rw [hmem, hmem]
  | _ => rfl

end RedB.Tran.Syn

namespace RedB.Vm

open RedB.Tran Runs

variable (env : Env)

/-! ### Trees and items -/

/-- Both trees, put together. -/
def binaryTree (op : Op) (l r : Option (Tree env.F)) : Option (Tree env.F) := do
  let l ← l
  let r ← r
  some (.binary op l r)

/-- The tree of an expression; nothing if a number does not fit, if a column is not found, or
if a minus sign stands before something that has no negative. -/
def Env.tree : Syn → Option (Tree env.F)
  | .literal tok =>
      match tok.type with
      | .int => (stoi tok.text).map .int
      | .float => (env.stof tok.text).map .float
      | _ => some (.varchar (record tok).2)
  | .null _ => some (.varchar "null".toList)
  | .column col => (env.column [] [] col.text).bind env.denote
  | .tblColumn tbl _ col => (env.column [] tbl.text col.text).bind env.denote
  | .paren _ e _ => Env.tree e
  | .sign tok e => if tok.type = .minus then (Env.tree e).bind env.negative else Env.tree e
  | .bin op _ l r => binaryTree env op (Env.tree l) (Env.tree r)
  | .star _ | .tblStar .. | .dbStar .. => none

/-- The item that the instructions of an expression leave. -/
def Env.item : Syn → Option Item
  | .literal tok =>
      match tok.type with
      | .int => (stoi tok.text).map fun _ => .literal .int tok.text
      | .float => (env.stof tok.text).map fun _ => .literal .float tok.text
      | _ => some (.literal .varchar (record tok).2)
  | .null _ => some (.literal .varchar "null".toList)
  | .column col => env.column [] [] col.text
  | .tblColumn tbl _ col => env.column [] tbl.text col.text
  | .paren _ e _ => Env.item e
  | .sign tok e => if tok.type = .minus then (Env.item e).bind env.negate else Env.item e
  | .bin op _ l r => do
      let l ← Env.item l
      let r ← Env.item r
      some (.binary op l r)
  | .star _ | .tblStar .. | .dbStar .. => none

/-- The data records of a parser are in the data segment. -/
def Env.Agrees (data : List Token) : Prop := ∀ (i : ℕ) (r : Token), data[i]? = some r → env.data i = some (record r)

variable {env}

/-- The record that the line of a token refers to. -/
theorem Env.Agrees.refer {data : List Token} (h : env.Agrees data) {tok : Token} (ht : HasRecord data tok) :
    ∃ i r, RedB.Tran.refer data tok = .pusho (some i) tok ∧ env.data i = some (record r) ∧ r ∈ data ∧ r.text = tok.text := by
  obtain ⟨i, hi⟩ := Option.isSome_iff_exists.mp ht
  obtain ⟨r, hr, hmem, htext⟩ := findData_text hi
  exact ⟨i, r, by rw [RedB.Tran.refer, hi], h i r hr, hmem, htext⟩

theorem record_text {r tok : Token} (h : r.text = tok.text) : (record r).2 = (record tok).2 := by rw [record, record, h]

/-- A text that does not start with a quotation mark is recorded as it is. -/
theorem record_plain {tok : Token} (h : ch tok.text ≠ '"') : (record tok).2 = tok.text := by
  unfold record
  split
  · rename_i text e
    rw [e] at h
    exact absurd rfl h
  · rfl

/-- A name is recorded as it is. -/
theorem record_name {tok : Token} (h : tok.Shape) (ht : tok.type = .name) : (record tok).2 = tok.text := by
  obtain ⟨type, text⟩ := tok
  subst ht
  obtain ⟨⟨c, cs, rfl, hc, -⟩, -⟩ := h
  refine record_plain fun e => ?_
  obtain rfl : c = '"' := e
  cases hc

/-- A number is recorded as it is. -/
theorem record_number {tok : Token} (h : tok.Shape) (ht : tok.type ∈ [Ty.float, .int]) : (record tok).2 = tok.text := by
  refine record_plain fun e => ?_
  have hlit := literalType_of_shape h (by revert ht; cases tok.type <;> simp)
  obtain ⟨type, text⟩ := tok
  cases text with
  | nil => cases e
  | cons c text =>
    obtain rfl : c = '"' := e
    rw [literalType_quoted] at hlit
    simp only [List.mem_cons, List.not_mem_nil, or_false] at ht
    rcases ht with rfl | rfl <;> cases hlit

/-- A record that is found by the text of `null` is a text. -/
theorem pooled_null {r : Token} (hr : r.Pooled) (h : r.text = "null".toList) : toSchemaType r.type = 13 := by
  have h13 : literalType "null".toList = 13 := by decide
  cases hr with
  | first => rfl
  | header w => rfl
  | null => rfl
  | privilege hp => rfl
  | token hs ht =>
    by_cases hlit : r.type ∈ [Ty.float, .int, .varchar]
    · rw [literalType_of_shape hs hlit, h, h13]
    · obtain ⟨type, text⟩ := r
      simp only at h ht hlit
      subst h
      simp only [List.mem_cons, List.not_mem_nil, or_false, not_or] at ht hlit
      rcases ht with rfl | rfl | rfl | rfl | rfl
      · exact absurd rfl hlit.1
      · exact absurd rfl hlit.2.1
      · have : getSymbolType "null".toList ≠ none := by decide
        exact absurd hs.2 this
      · exact absurd rfl hlit.2.2
      · cases (List.cons.inj (show "null".toList = ['*'] from hs)).1

/-- The instructions of an expression leave its item, whatever was on the stack. -/
theorem run_compile {data : List Token} (hp : ∀ r ∈ data, r.Pooled) (h0 : data[0]? = some ⟨.schemaVarchar, empty⟩)
    (hd : env.Agrees data) {n : ℕ} {e : Syn} (he : e.Derives codeOps n) (hl : ∀ tok ∈ e.leaves, HasRecord data tok)
    (hs : ∀ tok ∈ e.tokens, tok.Shape) (stack : List Item) :
    run env (e.compile data).reverse stack = (env.item e).map (· :: stack) := by
  have hempty : env.varchar (.offset 0) = some [] := by
    rw [Env.varchar, hd 0 _ h0]
    rfl
  induction he generalizing stack with
  | @literal tok ht =>
    obtain ⟨i, r, href, hdata, hmem, htext⟩ := hd.refer (hl tok (by simp [Syn.leaves]))
    have hshape := hs tok (by simp [Syn.tokens])
    have htype := (hp r hmem).literal hshape ht htext
    have hrec : record r = (toSchemaType tok.type, (record tok).2) := Prod.ext htype (record_text htext)
    rw [Syn.compile, List.reverse_cons, List.reverse_singleton, List.singleton_append, href, run]
    simp only [step_pusho, step_mkexpr, Option.bind_some, run_singleton, makeExpression, hdata, hrec]
    simp only [List.mem_cons, List.not_mem_nil, or_false] at ht
    rcases ht with ht | ht | ht
    · rw [record_number hshape (by simp [ht])]
      simp [Env.item, ht, toSchemaType, TYPE_INT, TYPE_FLOAT, Option.map_map, Function.comp_def]
    · rw [record_number hshape (by simp [ht])]
      simp [Env.item, ht, toSchemaType, TYPE_INT, Option.map_map, Function.comp_def]
    · simp [Env.item, ht, toSchemaType, TYPE_INT, TYPE_FLOAT, TYPE_VARCHAR]
  | @null tok ht =>
    obtain ⟨i, r, href, hdata, hmem, htext⟩ := hd.refer (hl ⟨.varchar, "null".toList⟩ (by simp [Syn.leaves]))
    have hrec : record r = (13, "null".toList) := Prod.ext (pooled_null (hp r hmem) htext) (@record_text _ ⟨.varchar, _⟩ htext)
    rw [Syn.compile, List.reverse_cons, List.reverse_singleton, List.singleton_append, href, run]
    simp only [step_pusho, step_mkexpr, Option.bind_some, run_singleton, makeExpression, hdata, hrec]
    rfl
  | @column col ht =>
    obtain ⟨i, r, href, hdata, hmem, htext⟩ := hd.refer (hl col (by simp [Syn.leaves]))
    have hcol : env.varchar (.offset i) = some col.text := by
      rw [Env.varchar, hdata, Option.map_some, record_text htext, record_name (hs col (by simp [Syn.tokens])) ht]
    simp only [Syn.compile, List.reverse_cons, List.reverse_nil, List.nil_append, List.cons_append, href, run]
    simp only [pushEmptyLine, step_pusho, step_mkclmnexpr, Option.bind_some, makeColumnExpression, hempty, hcol, bind]
    cases hit : env.column [] [] col.text with
    | none => simp [Env.item, hit]
    | some it => simp [Env.item, hit]
  | @tblColumn tbl dot col htbl hdot hcol =>
    obtain ⟨i, r, href, hdata, hmem, htext⟩ := hd.refer (hl col (by simp [Syn.leaves]))
    obtain ⟨i', r', href', hdata', hmem', htext'⟩ := hd.refer (hl tbl (by simp [Syn.leaves]))
    have hc : env.varchar (.offset i) = some col.text := by
      rw [Env.varchar, hdata, Option.map_some, record_text htext, record_name (hs col (by simp [Syn.tokens])) hcol]
    have ht : env.varchar (.offset i') = some tbl.text := by
      rw [Env.varchar, hdata', Option.map_some, record_text htext', record_name (hs tbl (by simp [Syn.tokens])) htbl]
    simp only [Syn.compile, List.reverse_cons, List.reverse_nil, List.nil_append, List.cons_append, href, href', run]
    simp only [pushEmptyLine, step_pusho, step_mkclmnexpr, Option.bind_some, makeColumnExpression, hempty, hc, ht, bind]
    cases hit : env.column [] tbl.text col.text with
    | none => simp [Env.item, hit]
    | some it => simp [Env.item, hit]
  | star => rfl
  | @tblStar tbl dot ast _ _ _ =>
    obtain ⟨i, r, href, -⟩ := hd.refer (hl tbl (by simp [Syn.leaves]))
    rw [Syn.compile, href]
    rfl
  | @dbStar db dot tbl dot' ast _ _ _ _ _ =>
    obtain ⟨i, r, href, -⟩ := hd.refer (hl db (by simp [Syn.leaves]))
    obtain ⟨i', r', href', -⟩ := hd.refer (hl tbl (by simp [Syn.leaves]))
    rw [Syn.compile, href, href']
    rfl
  | @paren l r e _ _ _ ih => exact ih hl (fun t ht => hs t (by simp [Syn.tokens, ht])) stack
  | @sign tok e _ _ ih =>
    have ih := ih hl (fun t ht => hs t (by simp [Syn.tokens, ht])) stack
    rw [Syn.compile, Env.item]
    split
    · rw [List.reverse_cons, run_append, ih]
      cases hi : env.item e with
      | none => rfl
      | some it => rw [Option.map_some, Option.bind_some, run_singleton]; rfl
    · exact ih
  | up _ ih => exact ih hl hs stack
  | @bin n op tok l r hop _ _ ihl ihr =>
    have ihl := ihl (fun t ht => hl t (by simp [Syn.leaves, ht])) (fun t ht => hs t (by simp [Syn.tokens, ht]))
    have ihr := ihr (fun t ht => hl t (by simp [Syn.leaves, ht])) (fun t ht => hs t (by simp [Syn.tokens, ht]))
    -- the right operand runs first and ends up below the left one
    rw [Syn.compile, List.reverse_cons, List.reverse_append, run_append, run_append, ihr]
    cases hr : env.item r with
    | none => cases hl' : env.item l <;> simp [Env.item, hr, hl']
    | some itr =>
      rw [Option.map_some, Option.bind_some, ihl]
      cases hl' : env.item l with
      | none => simp [Env.item, hl']
      | some itl =>
        have hlevel : 1 ≤ opLevel op := by
          have := codeOps_level hop
          omega
        rw [Option.map_some, Option.bind_some, run_singleton]
        simp only [Env.item, hl', hr, bind, Option.bind_some, Option.map_some]
        cases op <;> first | rfl | simp [opLevel] at hlevel

/-! ### Minus signs -/

variable (env)

/-- A minus sign before an item, `k` times. -/
def Env.negateN : ℕ → Item → Option Item
  | 0, it => some it
  | k + 1, it => (env.negate it).bind (Env.negateN k)

/-- A minus sign before a tree, `k` times. -/
def Env.negativeN : ℕ → Tree env.F → Option (Tree env.F)
  | 0, t => some t
  | k + 1, t => (env.negative t).bind (Env.negativeN k)

/-- A float with `k` minus signs, as it is written. -/
def Env.writeNeg : ℕ → Text → Option Text
  | 0, value => some value
  | k + 1, value => (env.stof value).bind fun x => Env.writeNeg k (env.fixed2 (env.neg x))

/-- The minus signs do to numbers and columns what they should: a float with `k` of them is
read as its negative again, and a column has none or an odd number of them. -/
def Env.SignsOk : Syn → ℕ → Prop
  | .literal tok, k => tok.type = .float → (env.writeNeg k tok.text).bind env.stof = (env.stof tok.text).map env.neg^[k]
  | .column _, k | .tblColumn .., k => k = 0 ∨ k % 2 = 1
  | .paren _ e _, k => Env.SignsOk e k
  | .sign tok e, k => Env.SignsOk e (if tok.type = .minus then k + 1 else k)
  | .bin _ _ l r, _ => Env.SignsOk l 0 ∧ Env.SignsOk r 0
  | _, _ => True

variable {env}

@[simp] theorem bind_negativeN_zero (o : Option (Tree env.F)) : o.bind (env.negativeN 0) = o := by cases o <;> rfl

@[simp] theorem bind_negateN_zero (o : Option Item) : o.bind (env.negateN 0) = o := by cases o <;> rfl

theorem negativeN_binary {k : ℕ} {op : Op} {l r t : Tree env.F} (h : env.negativeN k (.binary op l r) = some t) :
    k = 0 ∧ t = .binary op l r := by
  cases k with
  | zero => exact ⟨rfl, (Option.some.inj h).symm⟩
  | succ k => cases h

theorem negativeN_varchar {k : ℕ} {text : Text} {t : Tree env.F} (h : env.negativeN k (.varchar text) = some t) :
    k = 0 ∧ t = .varchar text := by
  cases k with
  | zero => exact ⟨rfl, (Option.some.inj h).symm⟩
  | succ k => cases h

theorem negativeN_float (k : ℕ) (x : env.F) : env.negativeN k (.float x) = some (.float (env.neg^[k] x)) := by
  induction k generalizing x with
  | zero => rfl
  | succ k ih => exact ih (env.neg x)

theorem negateN_float (k : ℕ) (value : Text) :
    env.negateN k (.literal .float value) = (env.writeNeg k value).map (.literal .float) := by
  induction k generalizing value with
  | zero => rfl
  | succ k ih =>
    rw [Env.negateN, Env.negate, Env.writeNeg]
    cases env.stof value with
    | none => rfl
    | some x => exact ih _

/-- The numbers that have a negative of their own. -/
theorem stoi_neg_of {value : Text} {z : ℤ} (h : stoi value = some z) (hz : z ≠ -2 ^ 31) :
    stoi (intToText (-z)) = some (-z) ∧ -z ≠ -2 ^ 31 := by
  obtain ⟨h1, h2⟩ := stoi_range h
  rw [stoi_intToText, int32_eq_some]
  exact ⟨⟨by omega, rfl⟩, by omega⟩

/-- An integer keeps to what it says, whatever minus signs it has. -/
theorem negateN_int (k : ℕ) {value : Text} {z : ℤ} (h : stoi value = some z) (hz : z ≠ -2 ^ 31) :
    ∃ it, env.negateN k (.literal .int value) = some it ∧ env.negativeN k (.int z) = env.denote it := by
  induction k generalizing value z with
  | zero => exact ⟨_, rfl, by rw [Env.denote, h]; rfl⟩
  | succ k ih =>
    obtain ⟨h1, h2⟩ := stoi_neg_of h hz
    obtain ⟨it, hit, ht⟩ := ih h1 h2
    refine ⟨it, ?_, ht⟩
    rw [Env.negateN, Env.negate, h]
    exact hit

theorem negateN_column (k : ℕ) (p : Table) (c : Text) (b : Bool)
    (hnum : p.colType c = some TYPE_FLOAT ∨ p.colType c = some TYPE_INT) :
    env.negateN k (.column p c b) = some (.column p c (if k = 0 then b else true)) := by
  induction k generalizing b with
  | zero => rfl
  | succ k ih =>
    rw [Env.negateN, Env.negate, if_pos hnum, Option.bind_some, ih]
    simp

theorem negativeN_column (k : ℕ) (p : Table) (c : Text) (b : Bool)
    (hnum : p.colType c = some TYPE_FLOAT ∨ p.colType c = some TYPE_INT) :
    env.negativeN k (.column p c b) = some (.column p c (if k % 2 = 0 then b else !b)) := by
  induction k generalizing b with
  | zero => rfl
  | succ k ih =>
    rw [Env.negativeN, Env.negative, if_pos hnum, Option.bind_some, ih]
    rcases Nat.mod_two_eq_zero_or_one k with h | h
    · rw [if_pos h, if_neg (by omega)]
    · rw [if_neg (by omega), if_pos (by omega), Bool.not_not]

/-- A column that is found has its name, and no minus sign yet. -/
theorem column_named {db tbl col : Text} {it : Item} (h : env.column db tbl col = some it) : ∃ p, it = .column p col false := by
  unfold Env.column at h
  simp only [Option.bind_eq_some_iff, Option.map_eq_some_iff] at h
  obtain ⟨p, -, _, -, rfl⟩ := h
  exact ⟨p, rfl⟩

theorem column_plain {db tbl col : Text} {it : Item} (h : env.column db tbl col = some it) : ∃ p c, it = .column p c false := by
  obtain ⟨p, rfl⟩ := column_named h
  exact ⟨p, col, rfl⟩

/-- A literal that is read as an integer is not the least one. -/
theorem int_literal {tok : Token} (h : tok.Shape) (ht : tok.type = .int) {z : ℤ} (hz : stoi tok.text = some z) : z ≠ -2 ^ 31 := by
  obtain ⟨type, text⟩ := tok
  subst ht
  rcases h with ⟨hne, hd⟩ | h
  · rw [stoi_digits hne hd, int32_eq_some] at hz
    have := hz.2
    omega
  · obtain ⟨c, cs, he, hc⟩ := isAlpha_keyword h (by decide)
    simp only at he hz
    rw [he, stoi_word hc] at hz
    cases hz

/-- The item of two operands is their tree if each of them is its own. -/
theorem item_bin_iff {op : Op} {tok : Token} {l r : Syn} {tl tr : Tree env.F} :
    (∃ it, env.item (.bin op tok l r) = some it ∧ env.denote it = some (.binary op tl tr)) ↔
      (∃ it, env.item l = some it ∧ env.denote it = some tl) ∧ ∃ it, env.item r = some it ∧ env.denote it = some tr := by
  constructor
  · rintro ⟨it, hit, hden⟩
    obtain ⟨itl, hl, hit⟩ := Option.bind_eq_some_iff.mp hit
    obtain ⟨itr, hr, hit⟩ := Option.bind_eq_some_iff.mp hit
    obtain rfl := Option.some.inj hit
    obtain ⟨tl', hdl, hden⟩ := Option.bind_eq_some_iff.mp hden
    obtain ⟨tr', hdr, hden⟩ := Option.bind_eq_some_iff.mp hden
    obtain ⟨-, rfl, rfl⟩ := Tree.binary.inj (Option.some.inj hden)
    exact ⟨⟨itl, hl, hdl⟩, itr, hr, hdr⟩
  · rintro ⟨⟨itl, hl, hdl⟩, itr, hr, hdr⟩
    exact ⟨.binary op itl itr, by simp [Env.item, hl, hr], by simp [Env.denote, hdl, hdr]⟩

theorem binaryTree_eq_some {op : Op} {l r : Option (Tree env.F)} {t : Tree env.F} (h : binaryTree env op l r = some t) :
    ∃ tl tr, l = some tl ∧ r = some tr ∧ t = .binary op tl tr := by
  obtain ⟨tl, hl, h⟩ := Option.bind_eq_some_iff.mp h
  obtain ⟨tr, hr, h⟩ := Option.bind_eq_some_iff.mp h
  exact ⟨tl, tr, hl, hr, (Option.some.inj h).symm⟩

/-- The item of a column, with minus signs before it. -/
theorem column_eq_tree_iff {k : ℕ} {o : Option Item} (ho : ∀ it, o = some it → ∃ p c, it = .column p c false) {t : Tree env.F}
    (ht : (o.bind env.denote).bind (env.negativeN k) = some t) :
    (∃ it, o.bind (env.negateN k) = some it ∧ env.denote it = some t) ↔ k = 0 ∨ k % 2 = 1 := by
  obtain ⟨t', ht', hk⟩ := Option.bind_eq_some_iff.mp ht
  obtain ⟨it, hit, hden⟩ := Option.bind_eq_some_iff.mp ht'
  obtain ⟨p, c, rfl⟩ := ho it hit
  obtain rfl := Option.some.inj hden
  cases k with
  | zero => exact iff_of_true ⟨.column p c false, by rw [hit]; rfl, hk⟩ (.inl rfl)
  | succ k =>
    have hnum : p.colType c = some TYPE_FLOAT ∨ p.colType c = some TYPE_INT := by
      by_contra hnum
      rw [Env.negativeN, Env.negative, if_neg hnum] at hk
      cases hk
    rw [negativeN_column _ _ _ _ hnum] at hk
    obtain rfl := Option.some.inj hk
    rw [hit, Option.bind_some, negateN_column _ _ _ _ hnum, if_neg (Nat.succ_ne_zero k)]
    simp only [Option.some.injEq, exists_eq_left', Env.denote, Tree.column.injEq, true_and, Nat.succ_ne_zero, false_or,
      Bool.not_false]
    by_cases hm : (k + 1) % 2 = 0
    · rw [if_pos hm]
      simp [hm]
    · rw [if_neg hm]
      simp only [true_iff]
      omega

/-- The item of an expression, with `k` minus signs before it, is its tree, if the minus signs
do what they should and no parenthesis level is mixed. -/
theorem item_eq_tree_iff {n : ℕ} {e : Syn} (he : e.Derives codeOps n) (hs : ∀ tok ∈ e.tokens, tok.Shape) (k : ℕ) {t : Tree env.F}
    (ht : (env.tree e.sql).bind (env.negativeN k) = some t) :
    (∃ it, (env.item e).bind (env.negateN k) = some it ∧ env.denote it = some t) ↔ env.SignsOk e k ∧ e.Unmixed := by
  induction he generalizing k t with
  | @literal tok htok =>
    have hshape := hs tok (by simp [Syn.tokens])
    simp only [Syn.sql, Env.tree, Env.item, Env.SignsOk, Syn.Unmixed, and_true] at ht ⊢
    simp only [List.mem_cons, List.not_mem_nil, or_false] at htok
    rcases htok with hty | hty | hty
    · simp only [hty, Option.bind_map, forall_const] at ht ⊢
      obtain ⟨x, hx, ht⟩ := Option.bind_eq_some_iff.mp ht
      rw [Function.comp_apply, negativeN_float] at ht
      obtain rfl := Option.some.inj ht
      simp only [hx, Option.bind_some, Function.comp_apply, negateN_float, Option.map_some, Option.map_eq_some_iff]
      constructor
      · rintro ⟨it, ⟨value, hv, rfl⟩, hden⟩
        rw [Env.denote, Option.map_eq_some_iff] at hden
        obtain ⟨y, hy, he⟩ := hden
        obtain rfl := Tree.float.inj he
        rw [hv, Option.bind_some, hy]
      · intro hok
        obtain ⟨value, hv, hy⟩ := Option.bind_eq_some_iff.mp hok
        exact ⟨_, ⟨value, hv, rfl⟩, by rw [Env.denote, hy]; rfl⟩
    · simp only [hty, Option.bind_map, reduceCtorEq, false_imp_iff, iff_true] at ht ⊢
      obtain ⟨z, hz, ht⟩ := Option.bind_eq_some_iff.mp ht
      obtain ⟨it, hit, hden⟩ := negateN_int k hz (int_literal hshape hty hz)
      exact ⟨it, by rw [hz, Option.bind_some]; exact hit, by rw [← hden]; exact ht⟩
    · simp only [hty, reduceCtorEq, false_imp_iff, iff_true] at ht ⊢
      obtain ⟨rfl, rfl⟩ := negativeN_varchar ht
      exact ⟨_, rfl, rfl⟩
  | @null tok htok =>
    simp only [Syn.sql, Env.tree, Env.item, Env.SignsOk, Syn.Unmixed, and_true, iff_true] at ht ⊢
    obtain ⟨rfl, rfl⟩ := negativeN_varchar ht
    exact ⟨_, rfl, rfl⟩
  | @column col hcol =>
    simp only [Syn.sql, Env.tree, Env.item, Env.SignsOk, Syn.Unmixed, and_true] at ht ⊢
    exact column_eq_tree_iff (fun _ => column_plain) ht
  | @tblColumn tbl dot col htbl hdot hcol =>
    simp only [Syn.sql, Env.tree, Env.item, Env.SignsOk, Syn.Unmixed, and_true] at ht ⊢
    exact column_eq_tree_iff (fun _ => column_plain) ht
  | star | tblStar | dbStar => cases ht
  | @paren l r e _ _ _ ih =>
    exact ih (fun t ht => hs t (by simp [Syn.tokens, ht])) k ht
  | @sign tok e _ _ ih =>
    have ih := ih fun t ht => hs t (by simp [Syn.tokens, ht])
    simp only [Syn.sql, Env.tree, Env.item, Env.SignsOk, Syn.Unmixed] at ht ⊢
    by_cases hm : tok.type = .minus
    · simp only [if_pos hm] at ht ⊢
      rw [Option.bind_assoc] at ht
      rw [← ih (k + 1) ht, Option.bind_assoc]
      rfl
    · simp only [if_neg hm] at ht ⊢
      exact ih k ht
  | up _ ih => exact ih hs k ht
  | @bin n op tok l r hop hl hr ihl ihr =>
    have ihl := fun t => @ihl (fun t ht => hs t (by simp [Syn.tokens, ht])) 0 t
    have ihr := fun t => @ihr (fun t ht => hs t (by simp [Syn.tokens, ht])) 0 t
    simp only [bind_negativeN_zero, bind_negateN_zero] at ihl ihr
    have hlevel := codeOps_level hop
    by_cases hmix : op = .and ∧ (.or ∈ l.level ∨ .or ∈ r.level)
    · -- SQL reads it as an `OR`, and it becomes an `AND`
      obtain ⟨rfl, hor⟩ := hmix
      have hlev : (Syn.bin .and tok l r).level = .and :: (l.level ++ r.level) := by simp [Syn.level]
      obtain ⟨t', a, b, hsql⟩ := Syn.or_mem_level.mp (show .or ∈ (Syn.bin .and tok l r).level by simpa [hlev] using hor)
      rw [hsql] at ht
      obtain ⟨t1, ht1, hk⟩ := Option.bind_eq_some_iff.mp ht
      obtain ⟨ta, tb, -, -, rfl⟩ := binaryTree_eq_some ht1
      obtain ⟨rfl, rfl⟩ := negativeN_binary hk
      refine iff_of_false ?_ fun h => h.2.1 ⟨by simp [hlev], by simpa [hlev] using hor⟩
      rintro ⟨it, hit, hden⟩
      rw [bind_negateN_zero] at hit
      obtain ⟨itl, -, hit⟩ := Option.bind_eq_some_iff.mp hit
      obtain ⟨itr, -, hit⟩ := Option.bind_eq_some_iff.mp hit
      obtain rfl := Option.some.inj hit
      obtain ⟨tl', -, hden⟩ := Option.bind_eq_some_iff.mp hden
      obtain ⟨tr', -, hden⟩ := Option.bind_eq_some_iff.mp hden
      cases (Tree.binary.inj (Option.some.inj hden)).1
    · have hsql : (Syn.bin op tok l r).sql = .bin op tok l.sql r.sql := by
        by_cases hop : op = .and
        · subst hop
          simp only [true_and, not_or] at hmix
          exact Syn.andJoin_of_notOr (Syn.notOr_sql hmix.1) (Syn.notOr_sql hmix.2)
        · exact Syn.sql_bin hop
      have htop : ¬(.and ∈ (Syn.bin op tok l r).level ∧ .or ∈ (Syn.bin op tok l r).level) := by
        by_cases hop' : op = .and
        · subst hop'
          simp only [true_and, not_or] at hmix
          simp [Syn.level, hmix]
        · refine fun h => Syn.Derives.and_not_mem (.bin hop hl hr) ?_ h.1
          by_contra hn
          have : opLevel op = 6 := by
            have : opLevel op ≤ 6 := by cases op <;> simp [opLevel]
            omega
          exact hop' (by cases op <;> simp_all [opLevel])
      rw [hsql] at ht
      obtain ⟨t1, ht1, hk⟩ := Option.bind_eq_some_iff.mp ht
      obtain ⟨ta, tb, hta, htb, rfl⟩ := binaryTree_eq_some ht1
      obtain ⟨rfl, rfl⟩ := negativeN_binary hk
      simp only [bind_negateN_zero]
      rw [item_bin_iff, ihl ta hta, ihr tb htb, Env.SignsOk, Syn.Unmixed, and_and_and_comm, and_congr_right_iff]
      exact fun _ => ⟨fun h => ⟨htop, h⟩, fun h => h.2⟩

theorem signsOk_andJoin {tok : Token} {a b : Syn} (k : ℕ) :
    env.SignsOk (Syn.andJoin tok a b) k ↔ env.SignsOk a 0 ∧ env.SignsOk b 0 := by
  refine Syn.andJoin_induction (p := fun b e => ∀ k, env.SignsOk e k ↔ env.SignsOk a 0 ∧ env.SignsOk b 0) ?_ ?_ ?_ b k
  · intro t b1 b2 ih k
    rw [Env.SignsOk, Env.SignsOk, ih, and_assoc]
  · rintro t a1 a2 b rfl - k
    simp only [Env.SignsOk, and_assoc]
  · intro b _ _ k
    rw [Env.SignsOk]

/-- Signs stand in parentheses or before a literal or a column, and so does SQL read them. -/
theorem signsOk_sql (e : Syn) (k : ℕ) : env.SignsOk e.sql k ↔ env.SignsOk e k := by
  induction e generalizing k with
  | paren l e r ih => exact ih k
  | sign tok e ih => exact ih _
  | bin op tok l r ihl ihr =>
    by_cases hop : op = .and
    · subst hop
      rw [Syn.sql, signsOk_andJoin, ihl, ihr, Env.SignsOk]
    · rw [Syn.sql_bin hop, Env.SignsOk, Env.SignsOk, ihl, ihr]
  | _ => rfl

/-! ### The code of an expression -/

/-- The instructions, the last one first, leave one item, which is the tree of the expression. -/
def LeavesTree (env : Env) (code : List Line) (e : Syn) : Prop :=
  ∃ it t, env.tree e = some t ∧ env.denote it = some t ∧ ∀ stack, run env code.reverse stack = some (it :: stack)

/-- Equal lines before some code are those of the code itself. -/
theorem all_eq_of_append {line : Line} {calls c0 body c : List Line} (hcalls : ∀ l ∈ calls, l = line) (hne : calls ≠ [])
    (h : calls ++ c0 ++ body = c0 ++ c) : ∀ l ∈ c0, l = line := by
  induction c0 generalizing calls body c with
  | nil => simp
  | cons d ds ih =>
    obtain ⟨l, ls, rfl⟩ := List.exists_cons_of_ne_nil hne
    obtain rfl := hcalls l (List.mem_cons_self ..)
    simp only [List.cons_append, List.cons.injEq] at h
    obtain ⟨rfl, h⟩ := h
    have hds := @ih (ls ++ [l]) body c
      (fun x hx => hcalls x (by simpa [or_comm] using hx)) (by simp) (by simpa using h)
    exact List.forall_mem_cons.mpr ⟨rfl, hds⟩

/-- The calls of `AND` go to the very front of the code. -/
theorem fronts_code_iff {e : Syn} {calls c0 code : List Line} {s : PState} (he : e.Derives codeOps 6)
    (hf : Fronts logicExprOps e calls s c0 code) :
    (code = c0 ++ e.compile s.data ↔ (∀ line ∈ c0, line = .call .and) ∨ .and ∉ e.level) ∧
      ∀ c, code = c0 ++ c → c = e.compile s.data := by
  obtain ⟨hnil, hcalls, hcode⟩ := hf
  obtain ⟨body, hbody, rfl⟩ := hcode s.data List.prefix_rfl
  have hand : ∀ line ∈ calls, line = .call .and := by
    intro line hline
    obtain ⟨type, op, hop, rfl⟩ := hcalls line hline
    have : opLevel op = 6 := codeOps_level (n := 6) hop
    cases op <;> simp_all [opLevel]
  have hmem : .and ∈ e.level ↔ calls ≠ [] := by
    rw [Syn.and_mem_level he, Ne, hnil]
    push Not
    rfl
  have hall : ∀ c, calls ++ c0 ++ body = c0 ++ c → (∀ line ∈ c0, line = .call .and) ∨ calls = [] := by
    intro c hc
    by_cases hne : calls = []
    · exact .inr hne
    · exact .inl (all_eq_of_append hand hne hc)
  have hcomm : (∀ line ∈ c0, line = .call .and) ∨ calls = [] → calls ++ c0 ++ body = c0 ++ (calls ++ body) := by
    rintro (h | rfl)
    · rw [List.eq_replicate_of_mem hand, List.eq_replicate_of_mem h, ← List.append_assoc, List.replicate_append_replicate,
        List.replicate_append_replicate, Nat.add_comm]
    · rfl
  rw [hmem, not_not, hbody]
  refine ⟨⟨hall _, hcomm⟩, fun c hc => ?_⟩
  exact (List.append_cancel_left ((hcomm (hall c hc)).symm.trans hc)).symm

/-- The instructions of an expression leave its tree if its item is its tree. -/
theorem leavesTree_compile_iff {s s' : PState} {e : Syn} (hp : Parsed 6 e s s') (ha : env.Agrees s'.data) :
    LeavesTree env (e.compile s'.data) e.sql ↔ (∃ t, env.tree e.sql = some t) ∧ e.Unmixed ∧ env.SignsOk e 0 := by
  have hrun := run_compile hp.reads.wf.pooled hp.reads.wf.first ha hp.derives hp.leaves hp.shapes
  constructor
  · rintro ⟨it, t, ht, hden, hst⟩
    have hit : env.item e = some it := by
      have := (hrun []).symm.trans (hst [])
      simpa using this
    have := (item_eq_tree_iff hp.derives hp.shapes 0 (t := t) (by simpa using ht)).mp ⟨it, by simpa using hit, hden⟩
    exact ⟨⟨t, ht⟩, this.2, this.1⟩
  · rintro ⟨⟨t, ht⟩, hun, hsg⟩
    obtain ⟨it, hit, hden⟩ := (item_eq_tree_iff hp.derives hp.shapes 0 (t := t) (by simpa using ht)).mpr ⟨hsg, hun⟩
    rw [bind_negateN_zero] at hit
    exact ⟨it, t, ht, hden, fun stack => by rw [hrun, hit]; rfl⟩

/-- `logic_expr` reads an expression of SQL. The code it puts behind the code that it is given
leaves the tree of the expression if the tree can be built and no parenthesis level is mixed,
if the minus signs do what they should, and if there is no `AND` outside of parentheses where
there is code before: the calls of `AND` go before that too. -/
theorem logicExpr_leaves_tree_iff {fuel : ℕ} {s s' : PState} {c0 code : List Line} (hs : s.Wf)
    (h : logicExpr fuel c0 s = .ok code s') :
    ∃ e : Syn, e.Derives sqlOps 6 ∧ Reads s e.tokens s' ∧ ∀ env : Env, env.Agrees s'.data → e.NoStar →
      ((∃ c, code = c0 ++ c ∧ LeavesTree env c e) ↔
        (∃ t, env.tree e = some t) ∧ e.Unmixed ∧ env.SignsOk e 0 ∧ ((∀ line ∈ c0, line = .call .and) ∨ .and ∉ e.level)) := by
  obtain ⟨e, calls, hp, hf⟩ := logicExpr_fronts hs h
  refine ⟨e.sql, (Syn.derives_sql hp.derives).2.2 rfl, by rw [Syn.tokens_sql]; exact hp.reads, fun env ha _ => ?_⟩
  obtain ⟨hcode, hcomp⟩ := fronts_code_iff hp.derives hf
  have htree := leavesTree_compile_iff hp ha
  rw [Syn.unmixed_sql, signsOk_sql, Syn.mem_level_sql, ← hcode]
  constructor
  · rintro ⟨c, hc, hleaves⟩
    obtain rfl := hcomp c hc
    obtain ⟨h1, h2, h3⟩ := htree.mp hleaves
    exact ⟨h1, h2, h3, hc⟩
  · rintro ⟨h1, h2, h3, hc⟩
    exact ⟨_, hc, htree.mpr ⟨h1, h2, h3⟩⟩

/-- A machine with these data records and no table open. -/
def Env.plain (data : List Token) : Env where
  F := ℤ
  neg := Int.neg
  stof := stoi
  fixed2 := intToText
  dbName := []
  treeList := []
  data i := data[i]?.map record

theorem Env.plain_agrees (data : List Token) : (Env.plain data).Agrees data := fun i r h => by simp [Env.plain, h]

/-- The instructions and the data records of an expression that is all of the text. -/
def parseExpr (sql : Text) : Option (List Line × List Token) :=
  match (loadLookahead 1 >>= fun _ => logicExpr 20 []) (start sql) with
  | .ok code s => if s.cur = some ⟨.eoi, "<EOI>".toList⟩ then some (code, s.data) else none
  | .error .. => none

/-- The tokens of a text are those of `e`. -/
def Spells (sql : Text) (e : Syn) : Prop := ∃ ts rest, Lexes sql (e.tokens ++ ⟨.eoi, "<EOI>".toList⟩ :: ts) rest

/-- What is parsed has been read by `logic_expr`, up to the end of the text. -/
theorem parseExpr_eq_some {sql : Text} {code : List Line} {data : List Token} (h : parseExpr sql = some (code, data)) :
    ∃ s s' : PState, s.Wf ∧ logicExpr 20 [] s = .ok code s' ∧ s'.data = data ∧
      ∀ e : Syn, Reads s e.tokens s' → Spells sql e := by
  unfold parseExpr at h
  split at h
  · rename_i code' s' hx
    obtain ⟨u, s, hload, hx⟩ := bind_ok.mp hx
    split at h
    · rename_i hend
      obtain ⟨rfl, rfl⟩ := Prod.mk.inj (Option.some.inj h)
      refine ⟨s, s', start_wf hload (by decide), hx, rfl, fun e hr => ?_⟩
      obtain ⟨us, hlex, hus⟩ := hr.stream
      obtain ⟨tok, hcur, -, hahead⟩ := hr.wf.cur
      obtain rfl := Option.some.inj (hend.symm.trans hcur)
      rw [hahead] at hus
      exact ⟨_, _, hus ▸ (start_ahead hload).append hlex⟩
    · cases h
  · cases h

/-- An asterisk can be seen from the tokens. -/
theorem Syn.noStar_of_tokens {ops : ℕ → Ty → Option Op} {n : ℕ} {e : Syn} (h : e.Derives ops n)
    (ht : ∀ t ∈ e.tokens, t.type ≠ .asterisk) : e.NoStar := by
  induction h with
  | literal | null | column | tblColumn => trivial
  | star hstar | tblStar _ _ hstar | dbStar _ _ _ _ hstar => exact absurd hstar (ht _ (by simp [Syn.tokens]))
  | paren _ _ _ ih => exact ih fun t hm => ht t (by simp [Syn.tokens, hm])
  | sign _ _ ih => exact ih fun t hm => ht t (by simp [Syn.tokens, hm])
  | up _ ih => exact ih ht
  | bin _ _ _ ihl ihr => exact ⟨ihl fun t hm => ht t (by simp [Syn.tokens, hm]), ihr fun t hm => ht t (by simp [Syn.tokens, hm])⟩

/-- The first `n` tokens are all of the text, and none is an asterisk. -/
def starless (n : ℕ) (sql : Text) : Bool :=
  match loadTokens n (start sql) with
  | .ok _ s => ch s.lexer.input = EOI && s.lookahead.all fun t => t.type ≠ .asterisk
  | .error .. => false

theorem Spells.noStar {sql : Text} {e : Syn} {ops : ℕ → Ty → Option Op} {k n : ℕ} (h : Spells sql e) (he : e.Derives ops k)
    (hn : starless n sql = true) : e.NoStar := by
  obtain ⟨ts, rest, hlex⟩ := h
  refine Syn.noStar_of_tokens he fun t ht => ?_
  unfold starless at hn
  split at hn
  · rename_i u s hload
    rw [Bool.and_eq_true, decide_eq_true_eq, List.all_eq_true] at hn
    obtain ⟨us, l, rfl, -, hlex', -⟩ := loadTokens_ok hload
    rcases hlex.mem hlex' hn.1 t (List.mem_append_left _ ht) with hm | rfl
    · exact of_decide_eq_true (hn.2 t (List.mem_append_right _ hm))
    · decide
  · cases hn

/-- An expression with parentheses and a minus sign. -/
theorem logicExpr_leaves_tree_paren : ∃ code data, parseExpr "1 OR (0 AND -2)".toList = some (code, data) ∧
    ∃ e : Syn, e.Derives sqlOps 6 ∧ Spells "1 OR (0 AND -2)".toList e ∧
      ((∃ c, code = [] ++ c ∧ LeavesTree (Env.plain data) c e) ↔
        (∃ t, (Env.plain data).tree e = some t) ∧ e.Unmixed ∧ (Env.plain data).SignsOk e 0 ∧
          ((∀ line ∈ ([] : List Line), line = .call .and) ∨ .and ∉ e.level)) := by
  obtain ⟨⟨code, data⟩, hx⟩ := Option.isSome_iff_exists.mp (show (parseExpr "1 OR (0 AND -2)".toList).isSome = true by decide +kernel)
  obtain ⟨s, s', hs, h, rfl, hspelt⟩ := parseExpr_eq_some hx
  obtain ⟨e, he, hr, hiff⟩ := logicExpr_leaves_tree_iff hs h
  have hspelt := hspelt e hr
  exact ⟨code, _, hx, e, he, hspelt, hiff _ (Env.plain_agrees _) (hspelt.noStar (n := 8) he (by decide +kernel))⟩

/-- `1 OR 0 AND 0`, as SQL reads it. -/
def orAnd : Syn :=
  .bin .or ⟨.or, "OR".toList⟩ (.literal ⟨.int, ['1']⟩)
    (.bin .and ⟨.and, "AND".toList⟩ (.literal ⟨.int, ['0']⟩) (.literal ⟨.int, ['0']⟩))

theorem orAnd_derives : orAnd.Derives sqlOps 6 := by
  have hlit : ∀ c, (Syn.literal ⟨.int, [c]⟩).Derives sqlOps 4 := fun c => (Syn.Derives.literal (by simp)).mono (Nat.zero_le 4)
  exact .bin rfl (hlit '1').up.up (.bin rfl (hlit '0').up (hlit '0'))

/-- The instructions of `1 OR 0 AND 0` leave `(1 OR 0) AND 0`. -/
theorem or_and_not_leaves_tree : ∃ code data, parseExpr "1 OR 0 AND 0".toList = some (code, data) ∧ orAnd.Derives sqlOps 6 ∧
    orAnd.tokens.map Token.text = ["1".toList, "OR".toList, "0".toList, "AND".toList, "0".toList] ∧
    ((Env.plain data).tree orAnd).isSome = true ∧ ¬LeavesTree (Env.plain data) code orAnd := by
  refine ⟨_, _, (by decide +kernel : _ = some ([.call .and, .call .or, .call .mkexpr, .pusho (some 1) ⟨.int, ['1']⟩, .call .mkexpr,
    .pusho (some 2) ⟨.int, ['0']⟩, .call .mkexpr, .pusho (some 2) ⟨.int, ['0']⟩],
    [⟨.schemaVarchar, empty⟩, ⟨.int, ['1']⟩, ⟨.int, ['0']⟩])), orAnd_derives, rfl, rfl, ?_⟩
  rintro ⟨it, t, ht, hden, hrun⟩
  obtain rfl : Item.binary .and (.binary .or (.literal .int ['1']) (.literal .int ['0'])) (.literal .int ['0']) = it := by
    have hit := hrun []
    rw [show run _ _ [] = _ from rfl] at hit
    exact (List.cons.inj (Option.some.inj hit)).1
  obtain rfl := Option.some.inj (hden.symm.trans (show _ = some (Tree.binary Op.and _ _) from rfl))
  cases (Tree.binary.inj (Option.some.inj ht)).1

end RedB.Vm
