import RedB.Tran.Syntax

/-!
# Lists of expressions

Select lists, conditions of joins and USING lists give the code that they have so far to
`logic_expr`, which puts the calls of `AND` before all of it. So the code of the parts comes
out in order exactly if no part is an `AND` (`select_on_using_iff`); and an expression is
appended to code exactly if it is no `AND` or the code is nothing but calls of `AND`
(`logicExpr_appends_iff`).
-/

namespace RedB.Tran

open Runs

/-- `parser::next_header` -/
def nextHeader : P Text := do
  let s ← get
  let list :=
    match s.lexer.tokenList with
    | tok :: list => if tok.type = Ty.select then list.drop 1 else tok :: list
    | [] => []
  let ends : Token → Bool := fun tok => tok.type = .comma ∨ tok.type = .from
  let header := (list.takeWhile fun tok => !ends tok).flatMap Token.text
  set { s with lexer := { s.lexer with tokenList := (list.dropWhile fun tok => !ends tok).drop 1 } }
  let header := ((header.dropWhile isSpace).reverse.dropWhile isSpace).reverse
  let header := header.map fun c => if c = '\t' then ' ' else c
  pure ('"' :: (header.flatMap fun c => if c = '"' then ['\\', c] else [c]) ++ ['"'])

/-- The line that pushes the header of an expression. -/
def pushHeader : P Line := do
  let header ← nextHeader
  pushText header

/-- The loop of `parser::select_expr_list`, with `parser::select_expr` in it. -/
def selectExprLoop (depth : ℕ) : ℕ → List Line → P (List Line)
  | 0, _ => throw .fuel
  | fuel + 1, code => do
    let code ← logicExpr depth code
    let line ← pushHeader
    if (← getLookaheadType 0) = .comma then do
      consume
      selectExprLoop depth fuel (code ++ [.call .mkexprhdr, line])
    else pure (code ++ [.call .mkexprhdr, line])

/-- `parser::select_expr_list` -/
def selectExprList (depth fuel : ℕ) (code : List Line) : P (List Line) := selectExprLoop depth fuel (code ++ [.call .mkexprlst])

/-- The loop of USING: the code and the count. -/
def usingLoop (depth : ℕ) : ℕ → ℕ → List Line → P (List Line × ℕ)
  | 0, _, _ => throw .fuel
  | fuel + 1, count, code => do
    let mrk3 := code.length
    let code ← logicExpr depth code
    let code := if count + 1 > 1 then code.set mrk3 .nop else code
    if (← getLookaheadType 0) = .comma then do
      matchType .comma
      usingLoop depth fuel (count + 1) code
    else pure (code, count + 1)

/-- `parser::on_using` -/
def onUsing (depth fuel : ℕ) (code : List Line) : P (List Line) := do
  match ← getLookaheadType 0 with
  | .on => do
    matchType .on
    logicExpr depth (code ++ [.call .on])
  | .using => do
    matchType .using
    matchType .lParen
    let (code', count) ← usingLoop depth fuel 0 (code ++ [.push ['0']])
    matchType .rParen
    pure ((code'.set (code.length + 1) (.push (toString count).toList)).set code.length (.call .using))
  | _ => pure code

/-! ### One expression -/

/-- The expression is an `AND`. -/
def Syn.IsAnd : Syn → Prop
  | bin op _ _ _ => op = .and
  | _ => False

/-- The run of a level is the same for all code before it. -/
theorem chainLoop_code {ops : Ty → Option Op} {operand : P (List Line)} (fuel : ℕ) :
    ∀ {code term out : List Line} {s s' : PState}, chainLoop ops operand fuel code term s = .ok out s' →
      ∃ calls body, (∀ line ∈ calls, ∃ t op, ops t = some op ∧ line = .call op) ∧
        ∀ code', chainLoop ops operand fuel code' term s = .ok (calls ++ code' ++ body) s' := by
  induction fuel with
  | zero => exact fun h => (throw_ok.mp h).elim
  | succ fuel ih =>
    intro code term out s s' h
    obtain ⟨type, s1, htype, hrest⟩ := bind_ok.mp h
    cases hop : ops type with
    | none =>
      rw [hop] at hrest
      obtain ⟨-, rfl⟩ := pure_ok.mp hrest
      refine ⟨[], term, nofun, fun code' => ?_⟩
      rw [chainLoop, bind_of_ok htype, hop]
      rfl
    | some op =>
      rw [hop] at hrest
      obtain ⟨u, s2, hc, hrest⟩ := bind_ok.mp hrest
      obtain ⟨next, s3, hn, hrest⟩ := bind_ok.mp hrest
      obtain ⟨calls, body, hcalls, hrun⟩ := ih hrest
      refine ⟨calls ++ [.call op], term ++ next ++ body, fun line hl => ?_, fun code' => ?_⟩
      · rcases List.mem_append.mp hl with hl | hl
        · exact hcalls line hl
        · exact ⟨type, op, hop, List.mem_singleton.mp hl⟩
      · rw [chainLoop, bind_of_ok htype, hop]
        dsimp only
        rw [bind_of_ok hc, bind_of_ok hn, hrun]
        simp

/-- The run of `logic_expr` is the same for all code before it. -/
theorem logicExpr_code {fuel : ℕ} {code out : List Line} {s s' : PState} (h : logicExpr fuel code s = .ok out s') :
    ∃ calls body, (∀ line ∈ calls, line = .call .and) ∧ ∀ code', logicExpr fuel code' s = .ok (calls ++ code' ++ body) s' := by
  cases fuel with
  | zero => exact (throw_ok.mp h).elim
  | succ fuel =>
    obtain ⟨term, s1, hterm, hrest⟩ := bind_ok.mp h
    obtain ⟨calls, body, hcalls, hrun⟩ := chainLoop_code fuel hrest
    refine ⟨calls, body, fun line hl => ?_, fun code' => ?_⟩
    · obtain ⟨t, op, hop, rfl⟩ := hcalls line hl
      unfold logicExprOps at hop
      split at hop
      · rw [← Option.some.inj hop]
      · cases hop
    · rw [logicExpr, chain, bind_of_ok hterm, hrun]

/-- What is before the first line that is none of some lines. -/
theorem append_cons_inj {α : Type} {x : α} {a b c d : List α} (ha : x ∉ a) (hc : x ∉ c) (h : a ++ x :: b = c ++ x :: d) : a = c := by
  induction a generalizing c with
  | nil =>
    cases c with
    | nil => rfl
    | cons y c =>
      obtain ⟨rfl, -⟩ := List.cons.inj h
      exact absurd List.mem_cons_self hc
  | cons y a ih =>
    cases c with
    | nil =>
      obtain ⟨rfl, -⟩ := List.cons.inj h
      exact absurd List.mem_cons_self ha
    | cons z c =>
      obtain ⟨rfl, hrest⟩ := List.cons.inj h
      rw [ih (fun hm => ha (List.mem_cons_of_mem _ hm)) (fun hm => hc (List.mem_cons_of_mem _ hm)) hrest]

/-- The expression that is read, the calls of `AND` that go before the code and the rest of its
code, which goes behind it. -/
theorem logicExpr_split {fuel : ℕ} {code out : List Line} {s s' : PState} (hs : s.Wf) (h : logicExpr fuel code s = .ok out s') :
    ∃ e calls body, Parsed 6 e s s' ∧ (calls = [] ↔ ¬e.IsAnd) ∧ (∀ line ∈ calls, line = .call .and) ∧
      (∀ d, s'.data <+: d → e.compile d = calls ++ body) ∧
      ∀ code', logicExpr fuel code' s = .ok (calls ++ code' ++ body) s' := by
  obtain ⟨calls, body, hcalls, hrun⟩ := logicExpr_code h
  obtain ⟨e, calls', hp, hand, hcalls', hcode⟩ := logicExpr_fronts hs (hrun [.nop])
  have hnop : ∀ calls : List Line, (∀ line ∈ calls, ∃ t op, logicExprOps t = some op ∧ line = .call op) → Line.nop ∉ calls := by
    intro calls hc hm
    obtain ⟨_, _, -, he⟩ := hc _ hm
    cases he
  obtain rfl : calls = calls' := by
    obtain ⟨body', -, he⟩ := hcode s'.data List.prefix_rfl
    simp only [List.append_assoc, List.singleton_append] at he
    refine append_cons_inj (fun hm => ?_) (hnop calls' hcalls') he
    cases hcalls _ hm
  refine ⟨e, calls, body, hp, hand.trans ⟨fun h => ?_, fun h => ?_⟩, hcalls, fun d hd => ?_, hrun⟩
  · cases e with
    | bin op tok l r =>
      rintro rfl
      obtain ⟨m, -, hop⟩ := hp.derives.level
      have hm := codeOps_level hop
      obtain rfl : m = 6 := hm.symm
      exact h .and tok l r rfl hop
    | _ => exact id
  · rintro op tok l r rfl hop
    refine h ?_
    unfold logicExprOps at hop
    split at hop
    · exact (Option.some.inj hop).symm
    · cases hop
  · obtain ⟨body', he, hb⟩ := hcode d hd
    rw [List.append_assoc, List.append_assoc] at hb
    rw [he, List.append_cancel_left (List.append_cancel_left hb)]

/-- Code that some copies of a line can be put before without a change starts with them and
has nothing else. -/
theorem eq_of_front {α : Type} {a : α} {calls : List α} (hc : ∀ x ∈ calls, x = a) (hne : calls ≠ []) :
    ∀ {w : List α}, w <+: calls ++ w → ∀ x ∈ w, x = a := by
  intro w
  induction hn : w.length using Nat.strong_induction_on generalizing w with
  | _ n ih =>
    intro hw x hx
    rcases Nat.lt_or_ge w.length calls.length with hlt | hge
    · have hpre : w <+: calls := List.prefix_of_prefix_length_le hw (List.prefix_append _ _) hlt.le
      exact hc x (hpre.subset hx)
    · have hpre : calls <+: w := List.prefix_of_prefix_length_le (List.prefix_append _ _) hw hge
      obtain ⟨w', rfl⟩ := hpre
      have hlen : 0 < calls.length := List.length_pos_iff.mpr hne
      rcases List.mem_append.mp hx with hx | hx
      · exact hc x hx
      · refine ih w'.length ?_ rfl ((List.prefix_append_right_inj calls).mp hw) x hx
        rw [← hn, List.length_append]
        omega

/-- An expression is appended to the code it is given, as it is translated on its own, exactly
if it is no `AND` or the code is nothing but calls of `AND`. -/
theorem logicExpr_appends_iff {fuel : ℕ} {code out : List Line} {s s' : PState} (hs : s.Wf) (h : logicExpr fuel code s = .ok out s') :
    ∃ e own, Parsed 6 e s s' ∧ logicExpr fuel [] s = .ok own s' ∧
      (out = code ++ own ↔ ¬e.IsAnd ∨ ∀ line ∈ code, line = .call .and) := by
  obtain ⟨e, calls, body, hp, hand, hcalls, -, hrun⟩ := logicExpr_split hs h
  obtain ⟨rfl, -⟩ := EStateM.Result.ok.inj (h.symm.trans (hrun code))
  refine ⟨e, calls ++ body, hp, by rw [hrun, List.append_nil], ?_⟩
  rw [← List.append_assoc, List.append_left_inj]
  constructor
  · intro he
    by_cases hn : calls = []
    · exact .inl (hand.mp hn)
    · exact .inr (eq_of_front hcalls hn (he ▸ List.prefix_append _ _))
  · rintro (hn | hcode)
    · rw [hand.mpr hn, List.nil_append, List.append_nil]
    · rw [List.eq_replicate_of_mem hcalls, List.eq_replicate_of_mem hcode, ← List.replicate_add, ← List.replicate_add, Nat.add_comm]

/-! ### Lists -/

/-- The expressions of a select list that are read, with the lines of their headers. -/
inductive SelectParts : PState → List (Syn × Line) → PState → Prop where
  | last {s s1 s2 s' : PState} {e : Syn} {line : Line} {type : Ty} : Parsed 6 e s s1 → pushHeader s1 = .ok line s2 →
      getLookaheadType 0 s2 = .ok type s' → type ≠ .comma → SelectParts s [(e, line)] s'
  | more {s s1 s2 s3 s4 s' : PState} {e : Syn} {line : Line} {parts : List (Syn × Line)} : Parsed 6 e s s1 →
      pushHeader s1 = .ok line s2 → getLookaheadType 0 s2 = .ok .comma s3 → consume s3 = .ok () s4 → SelectParts s4 parts s' →
      SelectParts s ((e, line) :: parts) s'

/-- The code of a select list. -/
def selectCode (d : List Token) (parts : List (Syn × Line)) : List Line :=
  parts.flatMap fun p => p.1.compile d ++ [.call .mkexprhdr, p.2]

/-- The expressions of a USING list that are read. -/
inductive UsingParts : PState → List Syn → PState → Prop where
  | last {s s1 s' : PState} {e : Syn} {type : Ty} : Parsed 6 e s s1 → getLookaheadType 0 s1 = .ok type s' → type ≠ .comma →
      UsingParts s [e] s'
  | more {s s1 s2 s3 s' : PState} {e : Syn} {parts : List Syn} : Parsed 6 e s s1 → getLookaheadType 0 s1 = .ok .comma s2 →
      matchType .comma s2 = .ok () s3 → UsingParts s3 parts s' → UsingParts s (e :: parts) s'

/-- The code of a USING list: the first line of each part is the count or nothing. -/
def usingCode (d : List Token) (parts : List Syn) : List Line :=
  match parts with
  | [] => []
  | e :: parts => .push (toString (parts.length + 1)).toList :: (e.compile d).tail ++ parts.flatMap fun e => .nop :: (e.compile d).tail

theorem nextHeader_reads {s s' : PState} {text : Text} (h : nextHeader s = .ok text s') (hs : s.Wf) :
    Reads s [] s' ∧ ∃ w : Text, text = '"' :: w ++ ['"'] := by
  rw [nextHeader, get_bind, set_bind] at h
  obtain ⟨rfl, rfl⟩ := pure_ok.mp h
  refine ⟨⟨⟨[], .nil _, List.append_nil _⟩, ⟨hs.ready, hs.mark, hs.lookahead, fun t ht => hs.tokenList t ?_, hs.first, hs.pooled⟩,
    List.prefix_rfl, rfl⟩, _, rfl⟩
  have hm := (List.dropWhile_sublist _).subset (List.mem_of_mem_drop ht)
  cases hl : s.lexer.tokenList with
  | nil =>
    rw [hl] at hm
    exact hm
  | cons tok list =>
    rw [hl] at hm
    dsimp only at hm
    split at hm
    · exact List.mem_cons_of_mem _ (List.mem_of_mem_drop hm)
    · exact hm

theorem pushHeader_reads {s s' : PState} {line : Line} (h : pushHeader s = .ok line s') (hs : s.Wf) : Reads s [] s' := by
  obtain ⟨text, s1, h1, h2⟩ := bind_ok.mp h
  obtain ⟨hr, w, rfl⟩ := nextHeader_reads h1 hs
  exact hr.trans (pushText_reads h2 hr.wf (.header w)).1

/-- What the loop of a list makes of the code it is given: calls of `AND` before it, and behind
it the code of the parts if there are none. -/
structure Lists (code out : List Line) (noAnd : Prop) (own : List Line) : Prop where
  split : ∃ calls body, out = calls ++ code ++ body ∧ (∀ line ∈ calls, line = .call .and) ∧ (calls = [] ↔ noAnd) ∧
    (calls = [] → body = own)

/-- The code of a list comes out in order exactly if no part is an `AND`. -/
theorem Lists.iff {code out own : List Line} {noAnd : Prop} (h : Lists code out noAnd own) (hc : ∃ line ∈ code, line ≠ .call .and) :
    out = code ++ own ↔ noAnd := by
  obtain ⟨calls, body, rfl, hcalls, hiff, hown⟩ := h.split
  constructor
  · intro he
    by_contra hn
    have hne : calls ≠ [] := fun h => hn (hiff.mp h)
    obtain ⟨line, hl, hline⟩ := hc
    refine hline (eq_of_front hcalls hne (@List.prefix_of_prefix_length_le _ _ _ (calls ++ code ++ body) ?_ (List.prefix_append _ _) ?_) line hl)
    · exact he ▸ List.prefix_append _ _
    · rw [List.length_append]
      omega
  · intro hn
    have hnil := hiff.mpr hn
    rw [hown hnil, hnil, List.nil_append]

theorem selectExprLoop_parts {depth fuel : ℕ} {code out : List Line} {s s' : PState} (hs : s.Wf)
    (h : selectExprLoop depth fuel code s = .ok out s') :
    s'.Wf ∧ s.data <+: s'.data ∧ ∃ parts, SelectParts s parts s' ∧
      Lists code out (∀ p ∈ parts, ¬p.1.IsAnd) (selectCode s'.data parts) := by
  induction fuel generalizing code s with
  | zero => exact (throw_ok.mp h).elim
  | succ fuel ih =>
    obtain ⟨code1, s1, h1, hrest⟩ := bind_ok.mp h
    obtain ⟨line, s2, h2, hrest⟩ := bind_ok.mp hrest
    obtain ⟨type, s3, h3, hrest⟩ := bind_ok.mp hrest
    obtain ⟨e, calls, body, hp, hand, hcalls, hcode, hrun⟩ := logicExpr_split hs h1
    obtain ⟨rfl, -⟩ := EStateM.Result.ok.inj (h1.symm.trans (hrun code))
    have hr2 := pushHeader_reads h2 hp.reads.wf
    obtain ⟨rfl, tok, hcur, -, rfl⟩ := getLookaheadType_zero h3 hr2.wf
    split at hrest
    · rename_i hcomma
      obtain ⟨u, s4, h4, hrest⟩ := bind_ok.mp hrest
      obtain ⟨hr4, -⟩ := consume_reads h4 hr2.wf hcur
      obtain ⟨hwf, hdata, parts, hparts, hlists⟩ := ih hr4.wf hrest
      have hd : s1.data <+: s'.data := hr2.data.trans (hr4.data.trans hdata)
      refine ⟨hwf, hp.reads.data.trans hd, (e, line) :: parts, .more hp h2 (hcomma ▸ h3) h4 hparts, ⟨?_⟩⟩
      obtain ⟨calls', body', hout, hcalls', hiff, hown⟩ := hlists.split
      refine ⟨calls' ++ calls, body ++ [.call .mkexprhdr, line] ++ body', ?_, fun l hl => ?_, ?_, fun hnil => ?_⟩
      · rw [hout]
        simp only [List.append_assoc]
      · exact (List.mem_append.mp hl).elim (hcalls' l) (hcalls l)
      · rw [List.append_eq_nil_iff, hiff, hand, List.forall_mem_cons, and_comm]
      · obtain ⟨hn', hn⟩ := List.append_eq_nil_iff.mp hnil
        rw [hown hn', selectCode, selectCode, List.flatMap_cons, hcode s'.data hd, hn, List.nil_append]
    · rename_i hcomma
      obtain ⟨rfl, rfl⟩ := pure_ok.mp hrest
      refine ⟨hr2.wf, hp.reads.data.trans hr2.data, [(e, line)], .last hp h2 h3 hcomma,
        ⟨calls, body ++ [.call .mkexprhdr, line], by simp only [List.append_assoc], hcalls, ?_, fun hn => ?_⟩⟩
      · rw [List.forall_mem_singleton, hand]
      · rw [selectCode, List.flatMap_singleton, hcode _ hr2.data, hn, List.nil_append]

/-- The code of an expression has a first line. -/
theorem Syn.compile_ne_nil (d : List Token) (e : Syn) : e.compile d ≠ [] := by
  induction e with
  | paren l e r ih => exact ih
  | sign tok e ih =>
    rw [Syn.compile]
    split
    · exact List.cons_ne_nil _ _
    · exact ih
  | _ => exact List.cons_ne_nil _ _

theorem Syn.compile_cons (d : List Token) (e : Syn) : ∃ line lines, e.compile d = line :: lines :=
  List.exists_cons_of_ne_nil (e.compile_ne_nil d)

/-- The code of the parts of a USING list before the count is put in. -/
def usingTail (d : List Token) : ℕ → List Syn → List Line
  | _, [] => []
  | 0, e :: parts => e.compile d ++ usingTail d 1 parts
  | count + 1, e :: parts => .nop :: (e.compile d).tail ++ usingTail d (count + 2) parts

theorem usingTail_succ (d : List Token) (count : ℕ) (parts : List Syn) :
    usingTail d (count + 1) parts = parts.flatMap fun e => .nop :: (e.compile d).tail := by
  induction parts generalizing count with
  | nil => rfl
  | cons e parts ih => rw [usingTail, ih, List.flatMap_cons]

/-- The call of `AND` that has been put before some code. -/
theorem head_calls {calls code body : List Line} (hc : ∀ line ∈ calls, line = .call .and) (hne : code ≠ [])
    (h : code.head? = some (.call .and) ∨ calls ≠ []) : (calls ++ code ++ body).head? = some (.call .and) := by
  cases calls with
  | cons line calls =>
    rw [hc line List.mem_cons_self]
    rfl
  | nil =>
    obtain ⟨line, code, rfl⟩ := List.exists_cons_of_ne_nil hne
    exact h.resolve_right (fun h => h rfl)

theorem head_set {l : List Line} {i : ℕ} (hi : i ≠ 0) (line : Line) : (l.set i line).head? = l.head? := by
  cases l with
  | nil => rfl
  | cons a l =>
    obtain ⟨j, rfl⟩ := Nat.exists_eq_succ_of_ne_zero hi
    rfl

theorem usingLoop_parts {depth fuel count n : ℕ} {code out : List Line} {s s' : PState} (hs : s.Wf) (hne : code ≠ [])
    (h : usingLoop depth fuel count code s = .ok (out, n) s') :
    s'.Wf ∧ s.data <+: s'.data ∧ ∃ parts, UsingParts s parts s' ∧ n = count + parts.length ∧
      ((∀ e ∈ parts, ¬e.IsAnd) → ∀ d, s'.data <+: d → out = code ++ usingTail d count parts) ∧
      (code.head? = some (.call .and) ∨ (∃ e ∈ parts, e.IsAnd) → out.head? = some (.call .and)) := by
  induction fuel generalizing code count s with
  | zero => exact (throw_ok.mp h).elim
  | succ fuel ih =>
    obtain ⟨code1, s1, h1, hrest⟩ := bind_ok.mp h
    obtain ⟨type, s2, h2, hrest⟩ := bind_ok.mp hrest
    obtain ⟨e, calls, body, hp, hand, hcalls, hcode, hrun⟩ := logicExpr_split hs h1
    obtain ⟨rfl, -⟩ := EStateM.Result.ok.inj (h1.symm.trans (hrun code))
    obtain ⟨rfl, tok, hcur, -, rfl⟩ := getLookaheadType_zero h2 hp.reads.wf
    have hpos : code.length ≠ 0 := fun h => hne (List.length_eq_zero_iff.mp h)
    -- the code behind this part
    have hhead : code.head? = some (.call .and) ∨ e.IsAnd →
        (if count + 1 > 1 then (calls ++ code ++ body).set code.length .nop else calls ++ code ++ body).head? = some (.call .and) := by
      intro hh
      have hbase : (calls ++ code ++ body).head? = some (.call .and) :=
        head_calls hcalls hne (hh.imp_right fun he hn => hand.mp hn he)
      split
      · rw [head_set hpos, hbase]
      · exact hbase
    have hcode1 : ¬e.IsAnd → ∀ d, s2.data <+: d →
        (if count + 1 > 1 then (calls ++ code ++ body).set code.length .nop else calls ++ code ++ body) =
          code ++ usingTail d count [e] := by
      intro hn d hd
      obtain ⟨line, lines, hl⟩ := e.compile_cons d
      have hb : body = line :: lines := by rw [← hl, hcode d hd, hand.mpr hn, List.nil_append]
      rw [hand.mpr hn, hb, List.nil_append]
      cases count with
      | zero =>
        rw [if_neg (by decide), usingTail, usingTail, hl, List.append_nil]
      | succ count =>
        rw [if_pos (by omega), usingTail, usingTail, hl, List.set_append_right _ _ le_rfl, Nat.sub_self, List.append_nil]
        rfl
    split at hrest
    · rename_i hcomma
      obtain ⟨u, s3, h3, hrest⟩ := bind_ok.mp hrest
      obtain ⟨t3, -, -, -, hr3, -⟩ := matchType_reads h3 hp.reads.wf
      have hne1 : (if count + 1 > 1 then (calls ++ code ++ body).set code.length .nop else calls ++ code ++ body) ≠ [] := by
        split
        · simp [hne]
        · simp [hne]
      obtain ⟨hwf, hdata, parts, hparts, hn, hown, hheads⟩ := ih hr3.wf hne1 hrest
      have hd : s2.data <+: s'.data := hr3.data.trans hdata
      refine ⟨hwf, hp.reads.data.trans hd, e :: parts, .more hp (hcomma ▸ h2) h3 hparts, ?_, fun hno d hd' => ?_, fun hh => hheads ?_⟩
      · rw [hn, List.length_cons]
        omega
      · rw [hown (fun e he => hno e (List.mem_cons_of_mem _ he)) d hd', hcode1 (hno e List.mem_cons_self) d (hd.trans hd')]
        cases count with
        | zero => rw [usingTail, usingTail, usingTail, List.append_nil, List.append_assoc]
        | succ count => rw [usingTail, usingTail, usingTail, List.append_nil, List.append_assoc]
      · rcases hh with hh | ⟨e', he', hand'⟩
        · exact .inl (hhead (.inl hh))
        · rcases List.mem_cons.mp he' with rfl | he'
          · exact .inl (hhead (.inr hand'))
          · exact .inr ⟨e', he', hand'⟩
    · rename_i hcomma
      obtain ⟨hout, rfl⟩ := pure_ok.mp hrest
      obtain ⟨rfl, rfl⟩ := Prod.mk.inj hout
      refine ⟨hp.reads.wf, hp.reads.data, [e], .last hp h2 hcomma, rfl, fun hno d hd => ?_, fun hh => hhead ?_⟩
      · exact hcode1 (hno e List.mem_cons_self) d hd
      · rcases hh with hh | ⟨e', he', hand'⟩
        · exact .inl hh
        · rw [List.mem_singleton.mp he'] at hand'
          exact .inr hand'

/-! ### What callers make of expressions -/

/-- The condition of a join. -/
theorem on_iff {depth fuel : ℕ} {code out : List Line} {s s1 s2 s' : PState} (hs : s.Wf) (ht : getLookaheadType 0 s = .ok .on s1)
    (hm : matchType .on s1 = .ok () s2) (h : onUsing depth fuel code s = .ok out s') :
    ∃ e, Parsed 6 e s2 s' ∧ (out = code ++ .call .on :: e.compile s'.data ↔ ¬e.IsAnd) := by
  rw [onUsing, bind_of_ok ht] at h
  obtain ⟨u, s2', hm', h⟩ := bind_ok.mp h
  obtain ⟨-, rfl⟩ := EStateM.Result.ok.inj (hm.symm.trans hm')
  obtain ⟨rfl, -⟩ := getLookaheadType_zero ht hs
  obtain ⟨tok, -, -, -, hr, -⟩ := matchType_reads hm hs
  obtain ⟨e, calls, body, hp, hand, hcalls, hcode, hrun⟩ := logicExpr_split hr.wf h
  obtain ⟨rfl, -⟩ := EStateM.Result.ok.inj (h.symm.trans (hrun (code ++ [.call .on])))
  have hlists : Lists (code ++ [.call .on]) (calls ++ (code ++ [.call .on]) ++ body) (¬e.IsAnd) (e.compile s'.data) :=
    ⟨calls, body, rfl, hcalls, hand, fun hn => by rw [hcode _ List.prefix_rfl, hn, List.nil_append]⟩
  refine ⟨e, hp, ?_⟩
  rw [← hlists.iff ⟨.call .on, List.mem_append_right _ (List.mem_singleton.mpr rfl), by decide⟩, List.append_assoc code, List.singleton_append]

/-- The list of USING. -/
theorem using_iff {depth fuel : ℕ} {op : Op} (hop : op ≠ .and) {out : List Line} {s s1 s2 s3 s' : PState} (hs : s.Wf)
    (ht : getLookaheadType 0 s = .ok .using s1) (hm : matchType .using s1 = .ok () s2) (hl : matchType .lParen s2 = .ok () s3)
    (h : onUsing depth fuel [.call op] s = .ok out s') :
    ∃ parts s4, UsingParts s3 parts s4 ∧ matchType .rParen s4 = .ok () s' ∧
      (out = .call op :: .call .using :: usingCode s'.data parts ↔ ∀ e ∈ parts, ¬e.IsAnd) := by
  rw [onUsing, bind_of_ok ht] at h
  dsimp only at h
  rw [bind_of_ok hm, bind_of_ok hl] at h
  obtain ⟨⟨code', count⟩, s4, hloop, h⟩ := bind_ok.mp h
  obtain ⟨u, s5, hr, h⟩ := bind_ok.mp h
  obtain ⟨rfl, rfl⟩ := pure_ok.mp h
  obtain ⟨rfl, -⟩ := getLookaheadType_zero ht hs
  obtain ⟨tok1, -, -, -, hr1, -⟩ := matchType_reads hm hs
  obtain ⟨tok2, -, -, -, hr2, -⟩ := matchType_reads hl hr1.wf
  obtain ⟨hwf, -, parts, hparts, rfl, hown, hhead⟩ := usingLoop_parts hr2.wf (List.cons_ne_nil _ _) hloop
  obtain ⟨tok4, -, -, -, hr4, -⟩ := matchType_reads hr hwf
  refine ⟨parts, s4, hparts, hr, fun he => ?_, fun hno => ?_⟩
  · by_contra hn
    push Not at hn
    have hc := hhead (.inr hn)
    have hout := congrArg List.head? he
    rw [head_set (by simp), head_set (by simp), hc] at hout
    exact hop (Line.call.inj (Option.some.inj hout)).symm
  · have hne : parts ≠ [] := by cases hparts <;> exact List.cons_ne_nil _ _
    obtain ⟨e, parts, rfl⟩ := List.exists_cons_of_ne_nil hne
    obtain ⟨line, lines, hline⟩ := e.compile_cons s5.data
    rw [hown hno _ hr4.data, usingTail, usingTail_succ, hline, usingCode, hline, Nat.zero_add]
    rfl

/-- Expressions are appended to code, and select lists, conditions of joins and USING lists are
the code of their parts in order, exactly if no call of `AND` goes to the front. -/
theorem select_on_using_iff {s : PState} (hs : s.Wf) (depth fuel : ℕ) (code out : List Line) (s' : PState) :
    (logicExpr fuel code s = .ok out s' →
      ∃ e own, Parsed 6 e s s' ∧ logicExpr fuel [] s = .ok own s' ∧
        (out = code ++ own ↔ ¬e.IsAnd ∨ ∀ line ∈ code, line = .call .and)) ∧
    (selectExprList depth fuel code s = .ok out s' →
      ∃ parts, SelectParts s parts s' ∧
        (out = code ++ [.call .mkexprlst] ++ selectCode s'.data parts ↔ ∀ p ∈ parts, ¬p.1.IsAnd)) ∧
    (∀ s1 s2, getLookaheadType 0 s = .ok .on s1 → matchType .on s1 = .ok () s2 → onUsing depth fuel code s = .ok out s' →
      ∃ e, Parsed 6 e s2 s' ∧ (out = code ++ .call .on :: e.compile s'.data ↔ ¬e.IsAnd)) ∧
    ∀ op s1 s2 s3, op ∈ [Op.crjoin, .injoin, .ltjoin, .rtjoin] → getLookaheadType 0 s = .ok .using s1 →
      matchType .using s1 = .ok () s2 → matchType .lParen s2 = .ok () s3 → onUsing depth fuel [.call op] s = .ok out s' →
      ∃ parts s4, UsingParts s3 parts s4 ∧ matchType .rParen s4 = .ok () s' ∧
        (out = .call op :: .call .using :: usingCode s'.data parts ↔ ∀ e ∈ parts, ¬e.IsAnd) := by
  refine ⟨fun h => logicExpr_appends_iff hs h, fun h => ?_, fun s1 s2 ht hm h => on_iff hs ht hm h,
    fun op s1 s2 s3 hop ht hm hl h => using_iff ?_ hs ht hm hl h⟩
  · obtain ⟨-, -, parts, hparts, hlists⟩ := selectExprLoop_parts hs h
    exact ⟨parts, hparts, hlists.iff ⟨.call .mkexprlst, List.mem_append_right _ (List.mem_singleton.mpr rfl), by decide⟩⟩
  · rintro rfl
    revert hop
    decide

/-- The parser before `a AND b FROM t`. -/
def andState : PState := { start " AND b FROM t".toList with
  lexer := ⟨" AND b FROM t".toList, [⟨.name, ['a']⟩]⟩, lookahead := [⟨.name, ['a']⟩] }

theorem andState_wf : andState.Wf := by
  have h : result (loadLookahead 1 (start "a AND b FROM t".toList)) = some ((), andState) := by decide +kernel
  exact start_wf (result_eq_some h) (by decide)

theorem select_on_using_and : ∃ out s', selectExprList 5 5 [] andState = .ok out s' ∧ ∃ parts, SelectParts andState parts s' ∧
    (out = [] ++ [.call .mkexprlst] ++ selectCode s'.data parts ↔ ∀ p ∈ parts, ¬p.1.IsAnd) := by
  obtain ⟨⟨out, s'⟩, h⟩ := Option.isSome_iff_exists.mp
    (show (result (selectExprList 5 5 [] andState)).isSome = true by decide +kernel)
  exact ⟨out, s', result_eq_some h, (select_on_using_iff andState_wf 5 5 [] out s').2.1 (result_eq_some h)⟩

/-- `SELECT a AND b FROM t`: the call of `AND` goes before the instruction that makes the list. -/
theorem and_goes_to_front : ∃ code out own s', logicExpr 5 code andState = .ok out s' ∧ logicExpr 5 [] andState = .ok own s' ∧
    out ≠ code ++ own := by
  have h : (result (logicExpr 5 [.call .mkexprlst] andState)).bind (fun r => (result (logicExpr 5 [] andState)).map fun r' =>
      decide (r.2 = r'.2 ∧ r.1 ≠ [.call .mkexprlst] ++ r'.1)) = some true := by decide +kernel
  obtain ⟨⟨out, s'⟩, hr, h⟩ := Option.bind_eq_some_iff.mp h
  obtain ⟨⟨own, s''⟩, hr', h⟩ := Option.map_eq_some_iff.mp h
  obtain ⟨rfl, hne⟩ := of_decide_eq_true h
  exact ⟨[.call .mkexprlst], out, own, s', result_eq_some hr, result_eq_some hr', hne⟩

end RedB.Tran
