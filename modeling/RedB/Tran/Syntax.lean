import RedB.Tran.Expr
import RedB.Tran.Steps

/-!
# The grammar of expressions

Expressions as written, token by token. A grammar says which operators stand on which
level; operators of one level associate to the left. The grammar of the translator has `OR`
below `AND`, that of SQL `AND` below `OR`.
-/

namespace RedB.Tran

open Runs

/-- An expression as written. -/
inductive Syn where
  | literal (tok : Token)
  | null (tok : Token)
  | column (col : Token)
  | tblColumn (tbl dot col : Token)
  | star (tok : Token)
  | tblStar (tbl dot ast : Token)
  | dbStar (db dot tbl dot' ast : Token)
  | paren (l : Token) (e : Syn) (r : Token)
  | sign (tok : Token) (e : Syn)
  | bin (op : Op) (tok : Token) (l r : Syn)
deriving DecidableEq

namespace Syn

/-- The tokens, in their order. -/
def tokens : Syn → List Token
  | literal tok => [tok]
  | null tok => [tok]
  | column col => [col]
  | tblColumn tbl dot col => [tbl, dot, col]
  | star tok => [tok]
  | tblStar tbl dot ast => [tbl, dot, ast]
  | dbStar db dot tbl dot' ast => [db, dot, tbl, dot', ast]
  | paren l e r => l :: e.tokens ++ [r]
  | sign tok e => tok :: e.tokens
  | bin _ tok l r => l.tokens ++ tok :: r.tokens

/-- No asterisk. -/
def NoStar : Syn → Prop
  | star _ | tblStar .. | dbStar .. => False
  | paren _ e _ | sign _ e => e.NoStar
  | bin _ _ l r => l.NoStar ∧ r.NoStar
  | _ => True

/-- The expressions of a level of a grammar. -/
inductive Derives (ops : ℕ → Ty → Option Op) : ℕ → Syn → Prop where
  | literal {tok : Token} : tok.type ∈ [Ty.float, .int, .varchar] → Derives ops 0 (.literal tok)
  | null {tok : Token} : tok.type = .nullSym → Derives ops 0 (.null tok)
  | column {col : Token} : col.type = .name → Derives ops 0 (.column col)
  | tblColumn {tbl dot col : Token} : tbl.type = .name → dot.type = .dot → col.type = .name → Derives ops 0 (.tblColumn tbl dot col)
  | star {tok : Token} : tok.type = .asterisk → Derives ops 0 (.star tok)
  | tblStar {tbl dot ast : Token} : tbl.type = .name → dot.type = .dot → ast.type = .asterisk → Derives ops 0 (.tblStar tbl dot ast)
  | dbStar {db dot tbl dot' ast : Token} : db.type = .name → dot.type = .dot → tbl.type = .name → dot'.type = .dot →
      ast.type = .asterisk → Derives ops 0 (.dbStar db dot tbl dot' ast)
  | paren {l r : Token} {e : Syn} : l.type = .lParen → Derives ops 6 e → r.type = .rParen → Derives ops 0 (.paren l e r)
  | sign {tok : Token} {e : Syn} : tok.type = .plus ∨ tok.type = .minus → Derives ops 0 e → Derives ops 0 (.sign tok e)
  | up {n : ℕ} {e : Syn} : Derives ops n e → Derives ops (n + 1) e
  | bin {n : ℕ} {op : Op} {tok : Token} {l r : Syn} : ops (n + 1) tok.type = some op → Derives ops (n + 1) l → Derives ops n r →
      Derives ops (n + 1) (.bin op tok l r)

end Syn

/-- The levels of the translator. -/
def codeOps : ℕ → Ty → Option Op
  | 1 => mathTermOps
  | 2 => mathExprOps
  | 3 => comparisonTermOps
  | 4 => comparisonExprOps
  | 5 => logicTermOps
  | 6 => logicExprOps
  | _ => fun _ => none

/-- The levels of SQL. -/
def sqlOps : ℕ → Ty → Option Op
  | 1 => mathTermOps
  | 2 => mathExprOps
  | 3 => comparisonTermOps
  | 4 => comparisonExprOps
  | 5 => fun | .and => some .and | _ => none
  | 6 => fun | .or => some .or | _ => none
  | _ => fun _ => none

/-! ### The code of an expression -/

/-- The line that pushes the empty text. -/
def pushEmptyLine : Line := .pusho (some 0) ⟨.varchar, empty⟩

/-- The code of an expression, last instruction first. -/
def Syn.compile (data : List Token) : Syn → List Line
  | literal tok => [.call .mkexpr, refer data tok]
  | null _ => [.call .mkexpr, refer data ⟨.varchar, "null".toList⟩]
  | column col => [.call .mkclmnexpr, pushEmptyLine, pushEmptyLine, refer data col]
  | tblColumn tbl _ col => [.call .mkclmnexpr, pushEmptyLine, refer data tbl, refer data col]
  | star _ => [.call .mkastexpr, pushEmptyLine, pushEmptyLine]
  | tblStar tbl _ _ => [.call .mkastexpr, pushEmptyLine, refer data tbl]
  | dbStar db _ tbl _ _ => [.call .mkastexpr, refer data db, refer data tbl]
  | paren _ e _ => e.compile data
  | sign tok e => if tok.type = .minus then .call .negate :: e.compile data else e.compile data
  | bin op _ l r => .call op :: (l.compile data ++ r.compile data)

/-- The tokens that have a data record. -/
def Syn.leaves : Syn → List Token
  | literal tok => [tok]
  | null _ => [⟨.varchar, "null".toList⟩]
  | column col => [col]
  | tblColumn tbl _ col => [tbl, col]
  | star _ => []
  | tblStar tbl _ _ => [tbl]
  | dbStar db _ tbl _ _ => [db, tbl]
  | paren _ e _ | sign _ e => e.leaves
  | bin _ _ l r => l.leaves ++ r.leaves

/-- What a run of the parser on an expression of level `n` of the translator does. -/
structure Parsed (n : ℕ) (e : Syn) (s s' : PState) : Prop where
  derives : e.Derives codeOps n
  reads : Reads s e.tokens s'
  leaves : ∀ tok ∈ e.leaves, HasRecord s'.data tok
  shapes : ∀ tok ∈ e.tokens, tok.Shape

/-- The parser reads an expression of level `n` and returns its code. -/
def Parses (n : ℕ) (x : P (List Line)) : Prop :=
  ∀ s code s', s.Wf → x s = .ok code s' → ∃ e, Parsed n e s s' ∧ ∀ d, s'.data <+: d → code = e.compile d

/-! ### Names -/

/-- A name, a name of a table and one of a column, or names with an asterisk. A name with the
database before it is not read. -/
theorem nameExpr_parses {s s' : PState} {code : List Line} (h : nameExpr s = .ok code s') (hs : s.Wf)
    (h6 : s.index + 6 ≤ s.lookahead.length) : ∃ e, Parsed 0 e s s' ∧ ∀ d, s'.data <+: d → code = e.compile d := by
  have hname : Ty.name ∈ [Ty.float, .int, .name, .varchar, .asterisk] := by decide
  have hspec : ∀ list : List Ty, list.length ≤ 5 → speculateList list s = .ok (decide ((s.ahead.take list.length).map Token.type = list)) s :=
    fun list hl => speculateList_loaded hs.mark (by omega)
  rw [nameExpr, bind_of_ok (hspec _ (by decide))] at h
  split at h
  · -- db.tbl.*
    obtain ⟨l1, s1, h1, h⟩ := bind_ok.mp h
    obtain ⟨_, s2, h2, h⟩ := bind_ok.mp h
    obtain ⟨l3, s3, h3, h⟩ := bind_ok.mp h
    obtain ⟨_, s4, h4, h⟩ := bind_ok.mp h
    obtain ⟨_, s5, h5, h⟩ := bind_ok.mp h
    obtain ⟨rfl, rfl⟩ := pure_ok.mp h
    obtain ⟨t1, -, hp1, ht1, r1, hr1, e1⟩ := pushData_reads h1 hs hname
    obtain ⟨t2, -, hp2, ht2, r2, -⟩ := matchType_reads h2 r1.wf
    obtain ⟨t3, -, hp3, ht3, r3, hr3, e3⟩ := pushData_reads h3 r2.wf hname
    obtain ⟨t4, -, hp4, ht4, r4, -⟩ := matchType_reads h4 r3.wf
    obtain ⟨t5, -, hp5, ht5, r5, -⟩ := matchType_reads h5 r4.wf
    have r45 := r4.trans r5
    have r25 := (r2.trans r3).trans r45
    refine ⟨.dbStar t1 t2 t3 t4 t5, ⟨.dbStar ht1 ht2 ht3 ht4 ht5, r1.trans r25, ?_, ?_⟩, fun d hd => ?_⟩
    · rintro tok (_ | ⟨_, _ | ⟨_, ⟨⟩⟩⟩)
      · exact hr1.mono r25.data
      · exact hr3.mono r45.data
    · simp [Syn.tokens, hp1, hp2, hp3, hp4, hp5]
    · rw [Syn.compile, e1 d (r25.data.trans hd), e3 d (r45.data.trans hd)]
  rw [bind_of_ok (hspec _ (by decide))] at h
  split at h
  · -- tbl.*
    obtain ⟨l0, s0, h0, h⟩ := bind_ok.mp h
    obtain ⟨l1, s1, h1, h⟩ := bind_ok.mp h
    obtain ⟨_, s2, h2, h⟩ := bind_ok.mp h
    obtain ⟨_, s3, h3, h⟩ := bind_ok.mp h
    obtain ⟨rfl, rfl⟩ := pure_ok.mp h
    obtain ⟨rfl, rfl⟩ := pushEmpty_reads h0 hs
    obtain ⟨t1, -, hp1, ht1, r1, hr1, e1⟩ := pushData_reads h1 hs hname
    obtain ⟨t2, -, hp2, ht2, r2, -⟩ := matchType_reads h2 r1.wf
    obtain ⟨t3, -, hp3, ht3, r3, -⟩ := matchType_reads h3 r2.wf
    have r23 := r2.trans r3
    refine ⟨.tblStar t1 t2 t3, ⟨.tblStar ht1 ht2 ht3, r1.trans r23, ?_, ?_⟩, fun d hd => ?_⟩
    · rintro tok (_ | ⟨_, ⟨⟩⟩)
      exact hr1.mono r23.data
    · simp [Syn.tokens, hp1, hp2, hp3]
    · rw [Syn.compile, e1 d (r23.data.trans hd)]
      rfl
  rw [bind_of_ok (hspec _ (by decide))] at h
  split at h
  · -- db.tbl.col: a dot is wanted where the name of the database is
    rename_i hdots
    obtain ⟨l0, s0, h0, h⟩ := bind_ok.mp h
    obtain ⟨_, s1, h1, h⟩ := bind_ok.mp h
    obtain ⟨rfl, rfl⟩ := pushEmpty_reads h0 hs
    obtain ⟨t1, hcur, hp1, ht1, -⟩ := matchType_reads h1 hs
    obtain ⟨t1', hcur', -, hahead⟩ := hs.cur
    obtain rfl := Option.some.inj (hcur'.symm.trans hcur)
    rw [hahead] at hdots
    simp only [List.length_cons, List.take_succ_cons, List.map_cons, decide_eq_true_eq, List.cons.injEq, ht1] at hdots
    cases hdots.1
  rw [bind_of_ok (hspec _ (by decide))] at h
  split at h
  · -- tbl.col
    obtain ⟨l0, s0, h0, h⟩ := bind_ok.mp h
    obtain ⟨l1, s1, h1, h⟩ := bind_ok.mp h
    obtain ⟨_, s2, h2, h⟩ := bind_ok.mp h
    obtain ⟨l3, s3, h3, h⟩ := bind_ok.mp h
    obtain ⟨rfl, rfl⟩ := pure_ok.mp h
    obtain ⟨rfl, rfl⟩ := pushEmpty_reads h0 hs
    obtain ⟨t1, -, hp1, ht1, r1, hr1, e1⟩ := pushData_reads h1 hs hname
    obtain ⟨t2, -, hp2, ht2, r2, -⟩ := matchType_reads h2 r1.wf
    obtain ⟨t3, -, hp3, ht3, r3, hr3, e3⟩ := pushData_reads h3 r2.wf hname
    have r23 := r2.trans r3
    refine ⟨.tblColumn t1 t2 t3, ⟨.tblColumn ht1 ht2 ht3, r1.trans r23, ?_, ?_⟩, fun d hd => ?_⟩
    · rintro tok (_ | ⟨_, _ | ⟨_, ⟨⟩⟩⟩)
      · exact hr1.mono r23.data
      · exact hr3
    · simp [Syn.tokens, hp1, hp2, hp3]
    · rw [Syn.compile, e1 d (r23.data.trans hd), e3 d hd]
      rfl
  · -- col
    obtain ⟨l0, s0, h0, h⟩ := bind_ok.mp h
    obtain ⟨l1, s1, h1, h⟩ := bind_ok.mp h
    obtain ⟨l2, s2, h2, h⟩ := bind_ok.mp h
    obtain ⟨rfl, rfl⟩ := pure_ok.mp h
    obtain ⟨rfl, rfl⟩ := pushEmpty_reads h0 hs
    obtain ⟨rfl, rfl⟩ := pushEmpty_reads h1 hs
    obtain ⟨t1, -, hp1, ht1, r1, hr1, e1⟩ := pushData_reads h2 hs hname
    refine ⟨.column t1, ⟨.column ht1, r1, ?_, ?_⟩, fun d hd => ?_⟩
    · rintro tok (_ | ⟨_, ⟨⟩⟩)
      exact hr1
    · simp [Syn.tokens, hp1]
    · rw [Syn.compile, e1 d hd]
      rfl

/-! ### The levels -/

theorem Parsed.up {n : ℕ} {e : Syn} {s s' : PState} (h : Parsed n e s s') : Parsed (n + 1) e s s' :=
  ⟨h.derives.up, h.reads, h.leaves, h.shapes⟩

/-- A literal. -/
theorem literal_parses {s s' : PState} {type : Ty} {line : Line} (h : pushData type s = .ok line s') (hs : s.Wf)
    (ht : type ∈ [Ty.float, .int, .varchar]) :
    ∃ e, Parsed 0 e s s' ∧ ∀ d, s'.data <+: d → [.call .mkexpr, line] = e.compile d := by
  have ht' : type ∈ [Ty.float, .int, .name, .varchar, .asterisk] := by
    have : ∀ t ∈ [Ty.float, .int, .varchar], t ∈ [Ty.float, .int, .name, .varchar, .asterisk] := by decide
    exact this type ht
  obtain ⟨tok, -, hp, rfl, r, hr, e⟩ := pushData_reads h hs ht'
  refine ⟨.literal tok, ⟨.literal ht, r, ?_, ?_⟩, fun d hd => ?_⟩
  · simpa [Syn.leaves] using hr
  · simpa [Syn.tokens] using hp
  · rw [Syn.compile, e d hd]

/-- `math_primary` -/
theorem mathPrimary_parses {expr : P (List Line)} (he : Parses 6 expr) (fuel : ℕ) (useAsterisk : Bool) :
    Parses 0 (mathPrimary expr fuel useAsterisk) := by
  induction fuel generalizing useAsterisk with
  | zero => exact fun s code s' _ h => (throw_ok.mp h).elim
  | succ fuel ih =>
    intro s code s' hs h
    rw [mathPrimary] at h
    obtain ⟨_, s1, hload, h1⟩ := bind_ok.mp h
    obtain ⟨r1, -, -, h6⟩ := loadLookahead_reads hload hs
    obtain ⟨type, s2, htype, h2⟩ := bind_ok.mp h1
    clear h h1
    obtain ⟨rfl, tok, hcur, hp, htok⟩ := getLookaheadType_zero htype r1.wf
    -- what has been loaded belongs to the run
    have hfrom : (∃ e, Parsed 0 e s2 s' ∧ ∀ d, s'.data <+: d → code = e.compile d) →
        ∃ e, Parsed 0 e s s' ∧ ∀ d, s'.data <+: d → code = e.compile d := by
      rintro ⟨e, hp, hc⟩
      exact ⟨e, ⟨hp.derives, r1.trans hp.reads, hp.leaves, hp.shapes⟩, hc⟩
    apply hfrom
    split at h2
    · -- an asterisk
      simp only at h2
      by_cases hu : useAsterisk = false
      · rw [if_pos hu] at h2
        obtain ⟨_, _, hx, -⟩ := bind_ok.mp h2
        cases throw_ok.mp hx
      rw [if_neg hu] at h2
      obtain ⟨_, s3, h3, hb⟩ := bind_ok.mp h2
      obtain ⟨r3, -⟩ := consume_reads h3 r1.wf hcur
      obtain ⟨type', s4, h4, hc⟩ := bind_ok.mp hb
      clear h2 hb
      obtain ⟨rfl, -⟩ := getLookaheadType_zero h4 r3.wf
      by_cases ha : type' = .asterisk
      · rw [if_pos ha] at hc
        obtain ⟨_, _, hx, -⟩ := bind_ok.mp hc
        cases throw_ok.mp hx
      rw [if_neg ha] at hc
      obtain ⟨db, s5, h5, hd⟩ := bind_ok.mp hc
      clear hc
      obtain ⟨rfl, rfl⟩ := pushEmpty_reads h5 r3.wf
      obtain ⟨tbl, s6, h6, he⟩ := bind_ok.mp hd
      clear hd
      obtain ⟨rfl, rfl⟩ := pushEmpty_reads h6 r3.wf
      obtain ⟨rfl, rfl⟩ := pure_ok.mp he
      refine ⟨.star tok, ⟨.star htok, r3, by simp [Syn.leaves], ?_⟩, fun d _ => rfl⟩
      simpa [Syn.tokens] using hp
    · -- a number
      obtain ⟨line, s3, hd, h2⟩ := bind_ok.mp h2
      obtain ⟨rfl, rfl⟩ := pure_ok.mp h2
      exact literal_parses hd r1.wf (by decide)
    · obtain ⟨line, s3, hd, h2⟩ := bind_ok.mp h2
      obtain ⟨rfl, rfl⟩ := pure_ok.mp h2
      exact literal_parses hd r1.wf (by decide)
    · -- an expression in parentheses
      obtain ⟨_, s3, h3, h2⟩ := bind_ok.mp h2
      obtain ⟨code', s4, h4, h2⟩ := bind_ok.mp h2
      obtain ⟨_, s5, h5, h2⟩ := bind_ok.mp h2
      obtain ⟨rfl, rfl⟩ := pure_ok.mp h2
      obtain ⟨r3, -⟩ := consume_reads h3 r1.wf hcur
      obtain ⟨e, hpe, hc⟩ := he _ _ _ r3.wf h4
      obtain ⟨tok', -, hp', ht', r5, -⟩ := matchType_reads h5 hpe.reads.wf
      refine ⟨.paren tok e tok', ⟨.paren htok hpe.derives ht', (r3.trans hpe.reads).trans r5, fun t ht => ?_, ?_⟩, fun d hd => ?_⟩
      · exact (hpe.leaves t ht).mono r5.data
      · intro t ht
        simp only [Syn.tokens, List.mem_append, List.mem_cons, List.not_mem_nil, or_false] at ht
        rcases ht with (rfl | ht) | rfl
        · exact hp
        · exact hpe.shapes t ht
        · exact hp'
      · exact hc d (r5.data.trans hd)
    · -- a minus sign
      obtain ⟨_, s3, h3, h2⟩ := bind_ok.mp h2
      obtain ⟨code', h4, rfl⟩ := map_ok.mp h2
      obtain ⟨r3, -⟩ := consume_reads h3 r1.wf hcur
      obtain ⟨e, hpe, hc⟩ := ih _ _ _ _ r3.wf h4
      refine ⟨.sign tok e, ⟨.sign (.inr htok) hpe.derives, r3.trans hpe.reads, hpe.leaves, ?_⟩, fun d hd => ?_⟩
      · rintro t (_ | ⟨_, ht⟩)
        · exact hp
        · exact hpe.shapes t ht
      · rw [Syn.compile, if_pos htok, hc d hd]
    · exact nameExpr_parses h2 r1.wf h6
    · -- null
      obtain ⟨_, s3, h3, h2⟩ := bind_ok.mp h2
      obtain ⟨line, s4, h4, h2⟩ := bind_ok.mp h2
      obtain ⟨rfl, rfl⟩ := pure_ok.mp h2
      obtain ⟨r3, -⟩ := consume_reads h3 r1.wf hcur
      obtain ⟨r4, hr4, e4⟩ := pushText_reads h4 r3.wf .null
      refine ⟨.null tok, ⟨.null htok, r3.trans r4, ?_, ?_⟩, fun d hd => ?_⟩
      · simpa [Syn.leaves] using hr4
      · simpa [Syn.tokens] using hp
      · rw [Syn.compile, e4 d hd]
    · -- a plus sign
      obtain ⟨_, s3, h3, h2⟩ := bind_ok.mp h2
      obtain ⟨r3, -⟩ := consume_reads h3 r1.wf hcur
      obtain ⟨e, hpe, hc⟩ := ih _ _ _ _ r3.wf h2
      refine ⟨.sign tok e, ⟨.sign (.inl htok) hpe.derives, r3.trans hpe.reads, hpe.leaves, ?_⟩, fun d hd => ?_⟩
      · rintro t (_ | ⟨_, ht⟩)
        · exact hp
        · exact hpe.shapes t ht
      · rw [Syn.compile, if_neg (by rw [htok]; decide), hc d hd]
    · obtain ⟨line, s3, hd, h2⟩ := bind_ok.mp h2
      obtain ⟨rfl, rfl⟩ := pure_ok.mp h2
      exact literal_parses hd r1.wf (by decide)
    · cases throw_ok.mp h2

/-- The operator of an expression is one of its level or of a level below. -/
theorem Syn.Derives.level {ops : ℕ → Ty → Option Op} {n : ℕ} {op : Op} {tok : Token} {l r : Syn}
    (h : (Syn.bin op tok l r).Derives ops n) : ∃ m ≤ n, ops m tok.type = some op := by
  generalize he : Syn.bin op tok l r = e at h
  induction h with
  | up _ ih =>
    obtain ⟨m, hm, hop⟩ := ih he
    exact ⟨m, Nat.le_succ_of_le hm, hop⟩
  | @bin n _ _ _ _ hop _ _ =>
    cases he
    exact ⟨n + 1, Nat.le_refl _, hop⟩
  | _ => cases he

/-- The level of an operator in the translator. -/
def opLevel : Op → ℕ
  | .mul | .div => 1
  | .sub | .add => 2
  | .cmpge | .cmpgt | .cmple | .cmplt => 3
  | .cmpeq | .cmpne => 4
  | .or => 5
  | .and => 6
  | _ => 0

theorem codeOps_level {n : ℕ} {type : Ty} {op : Op} (h : codeOps n type = some op) : opLevel op = n := by
  unfold codeOps at h
  split at h
  case h_7 => cases h
  all_goals
    first | unfold mathTermOps at h | unfold mathExprOps at h | unfold comparisonTermOps at h |
      unfold comparisonExprOps at h | unfold logicTermOps at h | unfold logicExprOps at h
    split at h <;> first | (obtain rfl := Option.some.inj h; rfl) | cases h

/-- The calls of the operators of a level, one for each operator of the chain, at the front
of its code; and the rest of it. -/
def Fronts (ops : Ty → Option Op) (e : Syn) (calls : List Line) (s : PState) (c0 code : List Line) : Prop :=
  (calls = [] ↔ ∀ op tok l r, e = .bin op tok l r → ops tok.type ≠ some op) ∧ (∀ line ∈ calls, ∃ t op, ops t = some op ∧ line = .call op) ∧
    ∀ d, s.data <+: d → ∃ body, e.compile d = calls ++ body ∧ code = calls ++ c0 ++ body

/-- The loop of a level goes on with what has been read. -/
theorem chainLoop_parses {n : ℕ} {operand : P (List Line)} (ho : Parses n operand) (fuel : ℕ) :
    ∀ {s s' : PState} {c0 code term code' : List Line} {e : Syn} {calls : List Line}, s.Wf → e.Derives codeOps (n + 1) →
      (∀ tok ∈ e.leaves, HasRecord s.data tok) → (∀ tok ∈ e.tokens, tok.Shape) →
      Fronts (codeOps (n + 1)) e calls s c0 (code ++ term) → chainLoop (codeOps (n + 1)) operand fuel code term s = .ok code' s' →
      ∃ e' calls' ts, e'.Derives codeOps (n + 1) ∧ e'.tokens = e.tokens ++ ts ∧ Reads s ts s' ∧
        (∀ tok ∈ e'.leaves, HasRecord s'.data tok) ∧ (∀ tok ∈ e'.tokens, tok.Shape) ∧
        Fronts (codeOps (n + 1)) e' calls' s' c0 code' := by
  induction fuel with
  | zero => exact fun _ _ _ _ _ h => (throw_ok.mp h).elim
  | succ fuel ih =>
    intro s s' c0 code term code' e calls hs hd hl hsh hf h
    obtain ⟨type, s1, htype, hrest⟩ := bind_ok.mp h
    obtain ⟨rfl, tok, hcur, hp, rfl⟩ := getLookaheadType_zero htype hs
    cases hop : codeOps (n + 1) tok.type with
    | none =>
      rw [hop] at hrest
      obtain ⟨rfl, rfl⟩ := pure_ok.mp hrest
      exact ⟨e, calls, [], hd, (List.append_nil _).symm, .refl hs, hl, hsh, hf⟩
    | some op =>
      rw [hop] at hrest
      obtain ⟨_, s2, hc, hrest⟩ := bind_ok.mp hrest
      obtain ⟨next, s3, hn, hrest⟩ := bind_ok.mp hrest
      obtain ⟨r2, -⟩ := consume_reads hc hs hcur
      obtain ⟨e2, hp2, hc2⟩ := ho _ _ _ r2.wf hn
      have r3 := r2.trans hp2.reads
      -- the operator goes to the front, the operand to the back
      have hf' : Fronts (codeOps (n + 1)) (.bin op tok e e2) (.call op :: calls) s3 c0 ((.call op :: code ++ term ++ next) ++ []) := by
        refine ⟨⟨fun hh => (by cases hh), fun hh => absurd hop (hh op tok e e2 rfl)⟩, ?_, fun d hd' => ?_⟩
        · rintro line (_ | ⟨_, hm⟩)
          · exact ⟨tok.type, op, hop, rfl⟩
          · exact hf.2.1 line hm
        · obtain ⟨body, h1, h2⟩ := hf.2.2 d (r3.data.trans hd')
          refine ⟨body ++ e2.compile d, ?_, ?_⟩
          · rw [Syn.compile, h1, List.cons_append, List.append_assoc]
          · rw [hc2 d hd', List.append_nil, List.cons_append, List.cons_append, h2]
            simp
      obtain ⟨e', calls', ts, g1, g2, g3, g4, g5, g6⟩ := ih hp2.reads.wf (.bin hop hd hp2.derives) (by
        intro t ht
        rcases List.mem_append.mp ht with ht | ht
        · exact (hl t ht).mono r3.data
        · exact hp2.leaves t ht) (by
        intro t ht
        rcases List.mem_append.mp ht with ht | ht
        · exact hsh t ht
        · rcases List.mem_cons.mp ht with rfl | ht
          · exact hp
          · exact hp2.shapes t ht) hf' hrest
      refine ⟨e', calls', tok :: e2.tokens ++ ts, g1, ?_, r3.trans g3, g4, g5, g6⟩
      rw [g2, Syn.tokens, List.append_assoc]

/-- A level, put behind some code. -/
theorem chain_fronts {n : ℕ} {first operand : P (List Line)} (hf : Parses n first) (ho : Parses n operand) (fuel : ℕ)
    {s s' : PState} {c0 code : List Line} (hs : s.Wf) (h : chain (codeOps (n + 1)) first operand fuel c0 s = .ok code s') :
    ∃ e calls, Parsed (n + 1) e s s' ∧ Fronts (codeOps (n + 1)) e calls s' c0 code := by
  obtain ⟨term, s1, hterm, h⟩ := bind_ok.mp h
  obtain ⟨e, hp, hc⟩ := hf _ _ _ hs hterm
  have hnot : ∀ op tok l r, e = .bin op tok l r → codeOps (n + 1) tok.type ≠ some op := by
    rintro op tok l r rfl hop
    obtain ⟨m, hm, hop'⟩ := hp.derives.level
    have := codeOps_level hop
    have := codeOps_level hop'
    omega
  have hfr : Fronts (codeOps (n + 1)) e [] s1 c0 (c0 ++ term) :=
    ⟨by simpa using hnot, by simp, fun d hd => ⟨term, (hc d hd).symm, rfl⟩⟩
  obtain ⟨e', calls, ts, g1, g2, g3, g4, g5, g6⟩ := chainLoop_parses ho fuel hp.reads.wf hp.derives.up hp.leaves hp.shapes hfr h
  exact ⟨e', calls, ⟨g1, g2 ▸ hp.reads.trans g3, g4, g5⟩, g6⟩

/-- A level of its own. -/
theorem chain_parses {n : ℕ} {first operand : P (List Line)} (hf : Parses n first) (ho : Parses n operand) (fuel : ℕ) :
    Parses (n + 1) (chain (codeOps (n + 1)) first operand fuel []) := by
  intro s code s' hs h
  obtain ⟨e, calls, hp, hfr⟩ := chain_fronts hf ho fuel hs h
  refine ⟨e, hp, fun d hd => ?_⟩
  obtain ⟨body, h1, h2⟩ := hfr.2.2 d hd
  rw [h1, h2, List.append_nil]

theorem mathTerm_parses {expr : P (List Line)} (he : Parses 6 expr) (fuel : ℕ) (b : Bool) : Parses 1 (mathTerm expr fuel b) :=
  chain_parses (mathPrimary_parses he fuel b) (mathPrimary_parses he fuel false) fuel

theorem mathExpr_parses {expr : P (List Line)} (he : Parses 6 expr) (fuel : ℕ) (b : Bool) : Parses 2 (mathExpr expr fuel b) :=
  chain_parses (mathTerm_parses he fuel b) (mathTerm_parses he fuel false) fuel

theorem comparisonTerm_parses {expr : P (List Line)} (he : Parses 6 expr) (fuel : ℕ) (b : Bool) :
    Parses 3 (comparisonTerm expr fuel b) :=
  chain_parses (mathExpr_parses he fuel b) (mathExpr_parses he fuel false) fuel

theorem comparisonExpr_parses {expr : P (List Line)} (he : Parses 6 expr) (fuel : ℕ) (b : Bool) :
    Parses 4 (comparisonExpr expr fuel b) :=
  chain_parses (comparisonTerm_parses he fuel b) (comparisonTerm_parses he fuel false) fuel

theorem logicTerm_parses {expr : P (List Line)} (he : Parses 6 expr) (fuel : ℕ) (b : Bool) : Parses 5 (logicTerm expr fuel b) :=
  chain_parses (comparisonExpr_parses he fuel b) (comparisonExpr_parses he fuel false) fuel

/-- `logic_expr`, given no code. -/
theorem logicExpr_parses (fuel : ℕ) : Parses 6 (logicExpr fuel []) := by
  induction fuel with
  | zero => exact fun s code s' _ h => (throw_ok.mp h).elim
  | succ fuel ih => exact chain_parses (logicTerm_parses ih fuel true) (logicTerm_parses ih fuel false) fuel

/-- `logic_expr`, given some code: the calls of `AND` go before it. -/
theorem logicExpr_fronts {fuel : ℕ} {s s' : PState} {c0 code : List Line} (hs : s.Wf) (h : logicExpr fuel c0 s = .ok code s') :
    ∃ e calls, Parsed 6 e s s' ∧ Fronts logicExprOps e calls s' c0 code := by
  cases fuel with
  | zero => exact (throw_ok.mp h).elim
  | succ fuel =>
    exact chain_fronts (n := 5) (logicTerm_parses (logicExpr_parses fuel) fuel true)
      (logicTerm_parses (logicExpr_parses fuel) fuel false) fuel hs h

end RedB.Tran
