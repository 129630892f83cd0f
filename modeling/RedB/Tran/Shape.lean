import RedB.Tran.Parser
import Mathlib.Data.List.TakeWhile

/-!
# What tokens look like

The type of a token says what characters its text has. Two literals with the same text have
the same type, so that a data record that is found by its text alone is a record of the
right type, as far as literals go.
-/

namespace RedB.Tran

/-- No quotation mark and no backslash. -/
def Plain (text : Text) : Prop := ∀ c ∈ text, c ≠ '"' ∧ c ≠ '\\'

/-- What the text of a token looks like. -/
def Token.Shape (tok : Token) : Prop :=
  match tok.type with
  | .varchar => (∃ w : Text, tok.text = '"' :: w ++ ['"'] ∧ ∀ c ∈ w, c ≠ '"' ∧ c ≠ '\'' ∧ c ≠ EOI) ∨ upper tok.text = "VARCHAR".toList
  | .int => (tok.text ≠ [] ∧ ∀ c ∈ tok.text, c.isDigit = true) ∨ upper tok.text = "INT".toList
  | .float => (∃ a b : Text, tok.text = a ++ '.' :: b ∧ ∀ c ∈ a ++ b, c.isDigit = true) ∨ upper tok.text = "FLOAT".toList
  | .name => (∃ (c : Char) (cs : Text), tok.text = c :: cs ∧ c.isAlpha = true ∧ ∀ c ∈ cs, isWord c = true) ∧ getSymbolType tok.text = none
  | .asterisk => tok.text = ['*']
  | .comment => True
  | .schemaVarchar => False
  | _ => Plain tok.text

instance (text : Text) : Decidable (Plain text) := List.decidableBAll _ text

/-- The types of tokens that stand for one text only. -/
theorem Token.shape_of_plain {tok : Token} (hp : Plain tok.text)
    (ht : tok.type ∉ [.varchar, .int, .float, .name, .asterisk, .comment, .schemaVarchar]) : tok.Shape := by
  simp only [List.mem_cons, List.not_mem_nil, not_or, or_false] at ht
  unfold Token.Shape
  split <;> simp_all

/-! ### Characters -/

theorem plain_of_isWord {c : Char} (h : isWord c = true) : c ≠ '"' ∧ c ≠ '\\' := by
  constructor <;> rintro rfl <;> cases h

theorem plain_of_isSpace {c : Char} (h : isSpace c = true) : c ≠ '"' ∧ c ≠ '\\' := by
  constructor <;> rintro rfl <;> cases h

theorem mem_takeWhile {p : Char → Bool} {text : Text} {c : Char} (h : c ∈ text.takeWhile p) : p c = true :=
  List.mem_takeWhile_imp h

theorem getSymbolType_some {text : Text} {type : Ty} (h : getSymbolType text = some type) :
    ∃ s ∈ symbol, s.2 = type ∧ s.1.toList = upper text := by
  obtain ⟨s, hs, rfl⟩ := Option.map_eq_some_iff.mp h
  exact ⟨s, List.mem_of_find?_eq_some hs, rfl, by simpa using List.find?_some hs⟩

/-- A keyword has the text of its symbol, up to the case of the letters; only a few types can also be of other tokens. -/
theorem shape_keyword {text : Text} {type : Ty} (h : getSymbolType text = some type) (hp : Plain text) :
    Token.Shape ⟨type, text⟩ := by
  obtain ⟨s, hs, rfl, he⟩ := getSymbolType_some h
  have hall : ∀ s ∈ symbol, (s.2 = .varchar → s.1 = "VARCHAR") ∧ (s.2 = .int → s.1 = "INT") ∧ (s.2 = .float → s.1 = "FLOAT") ∧
      s.2 ≠ .name ∧ s.2 ≠ .asterisk ∧ s.2 ≠ .schemaVarchar := by decide
  obtain ⟨h1, h2, h3, h4, h5, h6⟩ := hall s hs
  unfold Token.Shape
  split
  case h_1 e => exact .inr (he.symm.trans (congrArg String.toList (h1 e)))
  case h_2 e => exact .inr (he.symm.trans (congrArg String.toList (h2 e)))
  case h_3 e => exact .inr (he.symm.trans (congrArg String.toList (h3 e)))
  case h_4 e => exact absurd e h4
  case h_5 e => exact absurd e h5
  case h_6 => trivial
  case h_7 e => exact absurd e h6
  case h_8 => exact hp

/-! ### The lexer -/

theorem shape_varchar (input : Text) : (varchar input).1.Shape := by
  refine .inl ⟨_, rfl, fun c hc => ?_⟩
  have := mem_takeWhile hc
  simp only [Bool.and_eq_true, decide_eq_true_eq] at this
  exact ⟨this.1.1, this.1.2, this.2⟩

theorem shape_name {input : Text} (h : (ch input).isAlpha = true) : (name input).1.Shape := by
  cases input with
  | nil => cases h
  | cons c input =>
    have hc : isWord c = true := by
      rw [isWord, show c.isAlpha = true from h]
      rfl
    have htext : (name (c :: input)).1.text = c :: input.takeWhile isWord := by
      simp [name, takeChars, hc]
    have hword : ∀ c' ∈ (name (c :: input)).1.text, isWord c' = true := by
      rw [htext]
      intro c' hc'
      rcases List.mem_cons.mp hc' with rfl | hc'
      · exact hc
      · exact mem_takeWhile hc'
    have htype : (name (c :: input)).1.type = (getSymbolType (name (c :: input)).1.text).getD .name := rfl
    generalize (name (c :: input)).1 = tok at *
    obtain ⟨type, text⟩ := tok
    simp only at htype hword htext
    cases hs : getSymbolType text with
    | none =>
      rw [hs] at htype
      subst htype
      exact ⟨⟨c, _, htext, h, fun c' hc' => mem_takeWhile hc'⟩, hs⟩
    | some type' =>
      rw [hs] at htype
      subst htype
      exact shape_keyword hs fun c hc => plain_of_isWord (hword c hc)

theorem shape_number {input : Text} (h : (ch input).isDigit = true ∨ ch input = '.') : (number input).1.Shape := by
  by_cases hp : ch (input.dropWhile Char.isDigit) = '.'
  · rw [number, takeChars]
    simp only
    rw [if_pos hp]
    refine .inl ⟨_, _, rfl, fun c hc => ?_⟩
    rcases List.mem_append.mp hc with hc | hc <;> exact mem_takeWhile hc
  · rw [number, takeChars]
    simp only
    rw [if_neg hp]
    refine .inl ⟨fun e => ?_, fun c hc => mem_takeWhile hc⟩
    -- without a digit the first character is a point
    cases input with
    | nil => rcases h with h | h <;> cases h
    | cons c input =>
      by_cases hc : c.isDigit = true
      · simp [hc] at e
      · rcases h with h | h
        · exact hc h
        · rw [List.dropWhile_cons_of_neg hc] at hp
          exact hp h

theorem shape_compound {input : Text} {tok : Token} (h : (compound input).1 = some tok) : tok.Shape := by
  unfold compound at h
  split at h
  case h_2 =>
    simp only [apply_ite Prod.fst] at h
    split at h <;> obtain rfl := Option.some.inj h
    · exact shape_number (.inr ‹_›)
    · exact Token.shape_of_plain (by decide) (by decide)
  case h_7 => cases h
  all_goals
    simp only [apply_ite Prod.fst] at h
    split at h
    · obtain rfl := Option.some.inj h
      exact Token.shape_of_plain (by decide) (by decide)
    · cases h <;> exact Token.shape_of_plain (by decide) (by decide)

theorem shape_single {c : Char} {type : Ty} (h : single c = some type) : Token.Shape ⟨type, [c]⟩ := by
  unfold single at h
  split at h
  case h_3 => exact Option.some.inj h ▸ rfl
  case h_11 => cases h
  all_goals
    obtain rfl := Option.some.inj h
    exact Token.shape_of_plain (by decide) (by decide)

theorem shape_oneToken {input : Text} {tok : Token} (h : (oneToken input).1 = some tok) : tok.Shape := by
  unfold oneToken at h
  simp only at h
  split at h
  · exact Option.some.inj h ▸ shape_varchar input
  · cases hs : single (ch input) with
    | some type =>
      rw [hs] at h
      exact Option.some.inj h ▸ shape_single hs
    | none =>
      rw [hs] at h
      simp only at h
      split at h
      · exact shape_compound h
      · split at h
        · exact Option.some.inj h ▸ shape_name ‹_›
        · split at h
          · exact Option.some.inj h ▸ shape_number (.inl ‹_›)
          · cases h

/-- What the lexer returns has the shape of a token, and so has what it puts on its list. -/
theorem nextToken_shape {l l' : Lexer} {tok : Option Token} (h : nextToken l = (tok, l')) :
    (∀ t, tok = some t → t.Shape) ∧ ∃ ts, l'.tokenList = l.tokenList ++ ts ∧ ∀ t ∈ ts, t.Shape := by
  induction l using nextToken.induct with
  | case1 l heoi =>
    rw [nextToken, if_pos heoi] at h
    obtain ⟨rfl, rfl⟩ := Prod.mk.inj h
    exact ⟨fun t e => Option.some.inj e ▸ Token.shape_of_plain (by decide) (by decide), [], by simp, by simp⟩
  | case2 l heoi hws ih =>
    rw [nextToken, if_neg heoi, dif_pos hws] at h
    obtain ⟨h1, ts, h2, h3⟩ := ih h
    refine ⟨h1, (ws l.input).1 :: ts, by rw [h2]; simp, fun t ht => ?_⟩
    rcases List.mem_cons.mp ht with rfl | ht
    · exact fun c hc => plain_of_isSpace (mem_takeWhile hc)
    · exact h3 t ht
  | case3 l heoi hws hc ih =>
    rw [nextToken, if_neg heoi, dif_neg hws, dif_pos hc] at h
    obtain ⟨h1, ts, h2, h3⟩ := ih h
    refine ⟨h1, (comment l.input).1 :: ts, by rw [h2]; simp, fun t ht => ?_⟩
    rcases List.mem_cons.mp ht with rfl | ht
    · trivial
    · exact h3 t ht
  | case4 l heoi hws hc tok' rest hone =>
    rw [nextToken, if_neg heoi, dif_neg hws, dif_neg hc, hone] at h
    obtain ⟨rfl, rfl⟩ := Prod.mk.inj h
    have hshape : tok'.Shape := shape_oneToken (congrArg Prod.fst hone)
    exact ⟨fun t e => Option.some.inj e ▸ hshape, [tok'], rfl, by simpa using hshape⟩
  | case5 l heoi hws hc rest hone =>
    rw [nextToken, if_neg heoi, dif_neg hws, dif_neg hc, hone] at h
    obtain ⟨rfl, rfl⟩ := Prod.mk.inj h
    exact ⟨fun t e => (by cases e), [], by simp, by simp⟩

/-! ### Data records -/

/-- The constants of `grant_stmt` and `revoke_stmt`. -/
def privileges : List String :=
  ["all_priv", "alter_priv", "delete_priv", "drop_priv", "file_priv", "grant_priv", "index_priv", "insert_priv",
    "reload_priv", "select_priv", "shutdown_priv", "update_priv", "create_user_priv", "create_priv", "show_db_priv"]

/-- `to_schema_type`, for the types that data records have. -/
def toSchemaType : Ty → ℕ
  | .float => 7
  | .int => 9
  | .name => 16
  | .varchar | .schemaVarchar => 13
  | type => type.ctorIdx

/-- The text of a data record. -/
inductive Token.Pooled : Token → Prop where
  /-- The first record. -/
  | first : Pooled ⟨.schemaVarchar, empty⟩
  /-- A token of the text. -/
  | token {tok : Token} : tok.Shape → tok.type ∈ [Ty.float, .int, .name, .varchar, .asterisk] → Pooled tok
  /-- The header of a result. -/
  | header (w : Text) : Pooled ⟨.varchar, '"' :: w ++ ['"']⟩
  | null : Pooled ⟨.varchar, "null".toList⟩
  | privilege {p : String} : p ∈ privileges → Pooled ⟨.varchar, p.toList⟩

/-- The schema type of a literal, by its text. -/
def literalType (text : Text) : ℕ :=
  if (ch text).isDigit ∨ ch text = '.' then (if '.' ∈ text then 7 else 9)
  else if upper text = "INT".toList then 9
  else if upper text = "FLOAT".toList then 7
  else 13

theorem literalType_quoted (w : Text) : literalType ('"' :: w) = 13 := by
  have h1 : upper ('"' :: w) ≠ "INT".toList := fun e => by cases (List.cons.inj e).1
  have h2 : upper ('"' :: w) ≠ "FLOAT".toList := fun e => by cases (List.cons.inj e).1
  rw [literalType, if_neg (by simp [ch]), if_neg h1, if_neg h2]

theorem isAlpha_ne {c : Char} (h : c.isAlpha = true) : ¬(c.isDigit = true ∨ c = '.') := by
  rintro (hd | rfl)
  · rw [isDigit_of_isAlpha h] at hd
    cases hd
  · cases h

/-- A keyword starts with a letter. -/
theorem isAlpha_keyword {text : Text} {s : String} (h : upper text = s.toList) (ha : (ch s.toList).isAlpha = true) :
    ∃ c cs, text = c :: cs ∧ c.isAlpha = true := by
  cases text with
  | nil =>
    have : s.toList = [] := h.symm
    rw [this] at ha
    cases ha
  | cons c text =>
    refine ⟨c, text, rfl, ?_⟩
    have hc : ch s.toList = c.toUpper := by rw [← h, upper, List.map_cons, ch, List.headD_cons]
    rw [hc] at ha
    cases hl : c.isLower with
    | true => exact isAlpha_iff.mpr (Or.inr hl)
    | false => rwa [toUpper_of_not_isLower (Bool.eq_false_iff.mp hl)] at ha

theorem ch_keyword {text : Text} {s : String} (h : upper text = s.toList) (ha : (ch s.toList).isAlpha = true) :
    ¬((ch text).isDigit = true ∨ ch text = '.') := by
  obtain ⟨c, cs, rfl, hc⟩ := isAlpha_keyword h ha
  exact isAlpha_ne hc

/-- The type of a literal can be told from its text. -/
theorem literalType_of_shape {tok : Token} (h : tok.Shape) (ht : tok.type ∈ [Ty.float, .int, .varchar]) :
    toSchemaType tok.type = literalType tok.text := by
  obtain ⟨type, text⟩ := tok
  simp only [List.mem_cons, List.not_mem_nil, or_false] at ht
  simp only [Token.Shape] at h
  rcases ht with rfl | rfl | rfl
  · rcases h with ⟨a, b, rfl, hd⟩ | h
    · have h1 : (ch (a ++ '.' :: b)).isDigit = true ∨ ch (a ++ '.' :: b) = '.' := by
        cases a with
        | nil => exact .inr rfl
        | cons c a => exact .inl (hd c (List.mem_cons_self ..))
      rw [literalType, if_pos h1, if_pos (by simp)]
      rfl
    · rw [literalType, if_neg (ch_keyword h (by decide)), h, if_neg (by decide), if_pos rfl]
      rfl
  · rcases h with ⟨hne, hd⟩ | h
    · have h1 : (ch text).isDigit = true := by
        obtain ⟨c, cs, rfl⟩ := List.exists_cons_of_ne_nil hne
        exact hd c (List.mem_cons_self ..)
      have h2 : '.' ∉ text := fun hm => by cases hd '.' hm
      rw [literalType, if_pos (.inl h1), if_neg h2]
      rfl
    · rw [literalType, if_neg (ch_keyword h (by decide)), h, if_pos rfl]
      rfl
  · rcases h with ⟨w, rfl, -⟩ | h
    · exact (literalType_quoted _).symm
    · rw [literalType, if_neg (ch_keyword h (by decide)), h, if_neg (by decide), if_neg (by decide)]
      rfl

theorem keyword_literal : ∀ s ∈ ["VARCHAR", "INT", "FLOAT"],
    ((symbol.find? fun e => e.1.toList = s.toList).map Prod.snd).isSome = true := by decide

theorem literalType_privileges : ∀ p ∈ privileges, literalType p.toList = 13 := by decide

/-- A record that is found by the text of a literal has the type of the literal. -/
theorem Token.Pooled.literal {r tok : Token} (hr : r.Pooled) (h : tok.Shape) (ht : tok.type ∈ [Ty.float, .int, .varchar])
    (he : r.text = tok.text) : toSchemaType r.type = toSchemaType tok.type := by
  rw [literalType_of_shape h ht, ← he]
  cases hr with
  | first => exact (literalType_quoted _).symm
  | header w => exact (literalType_quoted _).symm
  | null => decide
  | privilege hp => exact (literalType_privileges _ hp).symm
  | token hs hty =>
    simp only [List.mem_cons, List.not_mem_nil, or_false] at hty
    by_cases hlit : r.type ∈ [Ty.float, .int, .varchar]
    · exact literalType_of_shape hs hlit
    simp only [List.mem_cons, List.not_mem_nil, or_false, not_or] at hlit
    exfalso
    -- a name or an asterisk is no literal
    obtain ⟨type, text⟩ := tok
    obtain ⟨rtype, rtext⟩ := r
    simp only at he hty hlit
    subst he
    simp only [List.mem_cons, List.not_mem_nil, or_false] at ht
    have hkey : ∀ s : String, s ∈ ["VARCHAR", "INT", "FLOAT"] → upper rtext = s.toList → (getSymbolType rtext).isSome = true := by
      intro s hsm e
      rw [getSymbolType, e]
      exact keyword_literal s hsm
    have hname : (∃ (c : Char) (cs : Text), rtext = c :: cs ∧ (c.isAlpha = true ∨ c = '*')) ∧ (getSymbolType rtext).isSome = false := by
      rcases hty with rfl | rfl | rfl | rfl | rfl
      · exact absurd rfl hlit.1
      · exact absurd rfl hlit.2.1
      · obtain ⟨⟨c, cs, e, hc, -⟩, hn⟩ := hs
        exact ⟨⟨c, cs, e, .inl hc⟩, by rw [hn]; rfl⟩
      · exact absurd rfl hlit.2.2
      · obtain rfl : rtext = ['*'] := hs
        exact ⟨⟨'*', [], rfl, .inr rfl⟩, by decide⟩
    obtain ⟨⟨c, cs, rfl, hc⟩, hn⟩ := hname
    simp only [Token.Shape] at h
    rcases ht with rfl | rfl | rfl
    · rcases h with ⟨a, b, e, hd⟩ | h
      · cases a with
        | nil => rcases hc with hc | hc <;> rw [(List.cons.inj e).1] at hc <;> cases hc
        | cons d a =>
          have := hd d (List.mem_cons_self ..)
          obtain ⟨rfl, -⟩ := List.cons.inj e
          rcases hc with hc | rfl
          · exact isAlpha_ne hc (.inl this)
          · cases this
      · rw [hkey _ (by decide) h] at hn
        cases hn
    · rcases h with ⟨-, hd⟩ | h
      · have := hd c (List.mem_cons_self ..)
        rcases hc with hc | rfl
        · exact isAlpha_ne hc (.inl this)
        · cases this
      · rw [hkey _ (by decide) h] at hn
        cases hn
    · rcases h with ⟨w, e, -⟩ | h
      · rcases hc with hc | hc <;> rw [(List.cons.inj e).1] at hc <;> cases hc
      · rw [hkey _ (by decide) h] at hn
        cases hn

end RedB.Tran
