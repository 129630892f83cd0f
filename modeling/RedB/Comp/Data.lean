import Mathlib.Algebra.Group.Nat.Defs
import RedB.Comp.Strings
import RedB.Tran.Dump
import RedB.Tran.Steps
import RedB.Vm.Expr

/-!
# The data segment

The assembler reads back the data records of the translator if each text between quotation
marks is closed and if all of them fit into the segment (`dataSegment_iff`). For a string
literal that is a matter of the backslashes at its end (`literal_survives_iff`).
-/

namespace RedB.Comp

open Runs
open RedB.Tran (EOI ch consumeChar takeChars toSchemaType)
open RedB.Vm (record)

/-! ### Tokens of the assembly text -/

theorem ne_of_pred {p : Char → Bool} {c d : Char} (h : p c = true) (h' : p d = false) : c ≠ d := by
  rintro rfl
  rw [h] at h'
  cases h'

theorem isSpace_of_isAlpha {c : Char} (h : c.isAlpha = true) : isSpace c = false := by
  have hne : ∀ d, Char.isAlpha d = false → c ≠ d := fun d => ne_of_pred h
  simp only [isSpace, Bool.or_eq_false_iff, decide_eq_false_iff_not]
  exact ⟨⟨⟨⟨⟨hne _ rfl, hne _ rfl⟩, hne _ rfl⟩, hne _ rfl⟩, hne _ rfl⟩, hne _ rfl⟩

theorem single_eq_none {p : Char → Bool} {c : Char} (h : p c = true) (hs : ∀ d, (single d).isSome = true → p d = false) :
    single c = none := by
  cases hc : single c with
  | none => rfl
  | some type =>
    rw [hs c (by rw [hc]; rfl)] at h
    cases h

theorem single_isSome {d : Char} (h : (single d).isSome = true) : d ∈ "#$%'()*+,".toList := by
  unfold single at h
  split at h
  case h_10 => cases h
  all_goals decide

/-- Taking characters ends where the first one is that does not belong. -/
theorem takeChars_append {p : Char → Bool} {text rest : Text} (h : ∀ c ∈ text, p c = true) (hr : p (ch rest) = false ∨ rest = []) :
    takeChars p (text ++ rest) = (text, rest) := by
  rw [takeChars, List.takeWhile_append_of_pos h, List.dropWhile_append_of_pos h]
  rcases hr with hr | rfl
  · cases rest with
    | nil => simp
    | cons c rest =>
      have hc : p c = false := hr
      rw [List.takeWhile_cons_of_neg (by simp [hc]), List.dropWhile_cons_of_neg (by simp [hc]), List.append_nil]
  · simp

/-- Blanks are skipped. -/
theorem nextToken_blank {blank input : Text} (hb : ∀ c ∈ blank, c = ' ' ∨ c = '\n') (hi : isSpace (ch input) = false) :
    nextToken (blank ++ input) = oneToken input := by
  have hspace : ∀ c, c = ' ' ∨ c = '\t' ∨ c = '\n' → isSpace c = true := fun c => Tran.isSpace_blank
  rw [nextToken]
  cases blank with
  | nil =>
    rw [List.nil_append, if_neg]
    intro h
    rw [hspace _ h] at hi
    cases hi
  | cons b blank =>
    have hb' : ∀ c ∈ b :: blank, isSpace c = true := by
      intro c hc
      rcases hb c hc with rfl | rfl <;> rfl
    rw [if_pos, takeChars_append hb' (.inl hi)]
    rcases hb b (List.mem_cons_self ..) with h | h
    · exact .inl h
    · exact .inr (.inr h)

/-- A word is a name. -/
theorem oneToken_name {c : Char} {cs rest : Text} (h : c.isAlpha = true) (hcs : ∀ c ∈ cs, isWord c = true)
    (hr : isWord (ch rest) = false ∨ rest = []) :
    oneToken (c :: cs ++ rest) = some (⟨(getSymbolType (c :: cs)).getD .varchar, c :: cs⟩, rest) := by
  have hc : ch (c :: cs ++ rest) = c := rfl
  have hsingle : single c = none :=
    single_eq_none h fun d hd => (by decide : ∀ d ∈ "#$%'()*+,".toList, Char.isAlpha d = false) d (single_isSome hd)
  have hword : ∀ d ∈ c :: cs, isWord d = true := by
    intro d hd
    rcases List.mem_cons.mp hd with rfl | hd
    · rw [isWord, h]
      rfl
    · exact hcs d hd
  rw [oneToken]
  simp only [hc, hsingle]
  rw [if_neg (ne_of_pred h (by decide)), if_neg (by simp [ne_of_pred h (show Char.isAlpha '"' = false by decide),
    ne_of_pred h (show Char.isAlpha '\\' = false by decide)]), if_neg (ne_of_pred h (by decide)), if_pos (.inl h), name,
    takeChars_append hword hr]

/-- Digits are a number. -/
theorem oneToken_digits {ds : Text} (hne : ds ≠ []) (hd : ∀ c ∈ ds, c.isDigit = true) (rest : Text) :
    oneToken (ds ++ rest) = some (number (ds ++ rest)) := by
  obtain ⟨c, ds, rfl⟩ := List.exists_cons_of_ne_nil hne
  have h : c.isDigit = true := hd c (List.mem_cons_self ..)
  have hc : ch (c :: ds ++ rest) = c := rfl
  have hsingle : single c = none :=
    single_eq_none h fun d hd => (by decide : ∀ d ∈ "#$%'()*+,".toList, Char.isDigit d = false) d (single_isSome hd)
  have halpha : c.isAlpha = false := by
    cases ha : c.isAlpha with
    | false => rfl
    | true => exact absurd (.inl h) (Tran.isAlpha_ne ha)
  rw [oneToken]
  simp only [hc, hsingle]
  rw [if_neg (ne_of_pred h (by decide)), if_neg (by simp [ne_of_pred h (show Char.isDigit '"' = false by decide),
    ne_of_pred h (show Char.isDigit '\\' = false by decide)]), if_neg (ne_of_pred h (by decide)),
    if_neg (by simp [halpha, ne_of_pred h (show Char.isDigit '_' = false by decide)]), if_pos (.inl h)]

/-- A number without a point. -/
theorem number_int {ds rest : Text} (hd : ∀ c ∈ ds, c.isDigit = true) (hr : (ch rest).isDigit = false) (hp : ch rest ≠ '.') :
    number (ds ++ rest) = (⟨.int, ds⟩, rest) := by
  rw [number, takeChars_append hd (.inl hr)]
  exact if_neg hp

/-- A number with a point. -/
theorem number_float {a b rest : Text} (hd : ∀ c ∈ a ++ b, c.isDigit = true) (hr : (ch rest).isDigit = false) :
    number (a ++ '.' :: (b ++ rest)) = (⟨.float, a ++ '.' :: b⟩, rest) := by
  rw [number, takeChars_append (fun c hc => hd c (List.mem_append_left _ hc)) (.inl rfl)]
  simp only
  rw [if_pos (show ch ('.' :: (b ++ rest)) = '.' from rfl), consumeChar, List.tail_cons,
    takeChars_append (fun c hc => hd c (List.mem_append_right _ hc)) (.inl hr)]

/-- What the assembler makes of a text on a line. -/
def Assembles (text value : Text) : Prop :=
  ∀ rest, ∃ type, nextToken (' ' :: text ++ '\n' :: rest) = some (⟨type, value⟩, '\n' :: rest)

theorem assembles_of_oneToken {text value : Text} (hs : isSpace (ch (text ++ ['\n'])) = false)
    (h : ∀ rest, ∃ type, oneToken (text ++ '\n' :: rest) = some (⟨type, value⟩, '\n' :: rest)) : Assembles text value := by
  intro rest
  obtain ⟨type, ht⟩ := h rest
  have hch : ch (text ++ '\n' :: rest) = ch (text ++ ['\n']) := by cases text <;> rfl
  refine ⟨type, ?_⟩
  rw [← ht, ← @nextToken_blank [' '] _ (by simp) (by rw [hch]; exact hs)]
  rfl

theorem assembles_word {c : Char} {cs : Text} (h : c.isAlpha = true) (hcs : ∀ c ∈ cs, isWord c = true) :
    Assembles (c :: cs) (c :: cs) :=
  assembles_of_oneToken (isSpace_of_isAlpha h) fun _ => ⟨_, oneToken_name h hcs (.inl rfl)⟩

theorem assembles_int {ds : Text} (hne : ds ≠ []) (hd : ∀ c ∈ ds, c.isDigit = true) : Assembles ds ds := by
  refine assembles_of_oneToken ?_ fun rest => ⟨.int, ?_⟩
  · obtain ⟨c, ds, rfl⟩ := List.exists_cons_of_ne_nil hne
    exact isSpace_of_isDigit (hd c (List.mem_cons_self ..))
  · rw [oneToken_digits hne hd, @number_int _ ('\n' :: rest) hd rfl (show '\n' ≠ '.' by decide)]

theorem oneToken_point {rest : Text} :
    oneToken ('.' :: rest) = if (ch rest).isDigit then some (number ('.' :: rest)) else some (⟨.dot, ['.']⟩, rest) := by
  simp [oneToken, ch, single, consumeChar, EOI]

theorem assembles_float {a b : Text} (hd : ∀ c ∈ a ++ b, c.isDigit = true) : Assembles (a ++ '.' :: b) (a ++ '.' :: b) := by
  refine assembles_of_oneToken ?_ fun rest => ?_
  · cases a with
    | nil => rfl
    | cons c a => exact isSpace_of_isDigit (hd c (by simp))
  have hnum := @number_float _ _ ('\n' :: rest) hd rfl
  rw [List.append_assoc, List.cons_append]
  cases a with
  | nil =>
    rw [List.nil_append, oneToken_point]
    cases b with
    | nil => exact ⟨.dot, rfl⟩
    | cons d b =>
      rw [if_pos (show (ch (d :: b ++ '\n' :: rest)).isDigit = true from hd d (by simp))]
      exact ⟨.float, congrArg some hnum⟩
  | cons c a =>
    refine ⟨.float, ?_⟩
    rw [oneToken_digits (by simp) (fun d hd' => hd d (List.mem_append_left _ hd')), hnum]

theorem assembles_asterisk : Assembles ['*'] ['*'] :=
  assembles_of_oneToken rfl fun _ => ⟨.asterisk, by simp [oneToken, ch, single, consumeChar, EOI]⟩

/-- A string is read up to its first quotation mark that has no backslash before it. -/
theorem nextToken_quoted (w rest : Text) : nextToken (' ' :: ('"' :: w ++ ['"']) ++ '\n' :: rest) =
    some (⟨.varchar, (quoted (w ++ '"' :: '\n' :: rest)).1⟩, consumeChar (quoted (w ++ '"' :: '\n' :: rest)).2) := by
  have h := @nextToken_blank [' '] ('"' :: w ++ ['"'] ++ '\n' :: rest) (by simp) rfl
  rw [List.singleton_append] at h
  rw [List.cons_append, h]
  simp [oneToken, ch, varchar, consumeChar, EOI]

/-! ### Data records -/

/-- The text of a record can be read back. -/
def ClosedRecord (r : Tran.Token) : Prop :=
  match r.text with
  | '"' :: w => Closed w.dropLast
  | _ => True

instance : DecidablePred ClosedRecord := fun r => by
  unfold ClosedRecord
  split <;> infer_instance

theorem isWord_keyword {text : Text} {s : String} (h : Tran.upper text = s.toList) (hs : ∀ c ∈ s.toList, c.isAlpha = true) :
    ∀ c ∈ text, isWord c = true := by
  intro c hc
  have hup : c.toUpper.isAlpha = true := hs _ (h ▸ List.mem_map_of_mem hc)
  have halpha : c.isAlpha = true := by
    obtain ⟨c', cs, he, hc'⟩ := @Tran.isAlpha_keyword [c] (String.ofList [c.toUpper]) (by simp [Tran.upper]) (by simpa [ch] using hup)
    obtain ⟨rfl, -⟩ := List.cons.inj he
    exact hc'
  rw [isWord, halpha]
  rfl

theorem assembles_keyword {text : Text} {s : String} (h : Tran.upper text = s.toList) (hs : ∀ c ∈ s.toList, c.isAlpha = true)
    (hne : s.toList ≠ []) : Assembles text text ∧ ch text ≠ '"' := by
  obtain ⟨c, cs, rfl, hc⟩ := Tran.isAlpha_keyword h (by
    obtain ⟨d, ds, hd⟩ := List.exists_cons_of_ne_nil hne
    rw [hd]
    exact hs d (by simp [hd]))
  have hw := isWord_keyword h hs
  exact ⟨assembles_word hc fun d hd => hw d (List.mem_cons_of_mem _ hd), ne_of_pred hc (by decide)⟩

theorem assembles_name {text : Text} (h : (ch text).isAlpha = true) (hw : ∀ c ∈ text, isWord c = true) :
    Assembles text text ∧ ch text ≠ '"' := by
  cases text with
  | nil => cases h
  | cons c cs => exact ⟨assembles_word h fun d hd => hw d (List.mem_cons_of_mem _ hd), ne_of_pred h (by decide)⟩

/-- A record is a text between quotation marks, or it is read as it is. -/
theorem pooled_assembles {r : Tran.Token} (hr : r.Pooled) :
    (∃ w, r.text = '"' :: w ++ ['"']) ∨ Assembles r.text r.text ∧ ch r.text ≠ '"' := by
  cases hr with
  | first => exact .inl ⟨[], rfl⟩
  | header w => exact .inl ⟨w, rfl⟩
  | null => exact .inr (assembles_name (by decide) (by decide))
  | privilege hp =>
    refine .inr (assembles_name ?_ ?_)
    · exact (by decide : ∀ p ∈ Tran.privileges, (ch p.toList).isAlpha = true) _ hp
    · exact (by decide : ∀ p ∈ Tran.privileges, ∀ c ∈ p.toList, isWord c = true) _ hp
  | token hs ht =>
    obtain ⟨type, text⟩ := r
    simp only [List.mem_cons, List.not_mem_nil, or_false] at ht
    rcases ht with rfl | rfl | rfl | rfl | rfl
    · rcases hs with ⟨a, b, rfl, hd⟩ | h
      · refine .inr ⟨assembles_float hd, ?_⟩
        cases a with
        | nil => exact (by decide : '.' ≠ '"')
        | cons c a => exact ne_of_pred (hd c (by simp)) (by decide)
      · exact .inr (assembles_keyword h (by decide) (by decide))
    · rcases hs with ⟨hne, hd⟩ | h
      · refine .inr ⟨assembles_int hne hd, ?_⟩
        obtain ⟨c, ds, rfl⟩ := List.exists_cons_of_ne_nil hne
        exact ne_of_pred (hd c (by simp)) (by decide)
      · exact .inr (assembles_keyword h (by decide) (by decide))
    · obtain ⟨⟨c, cs, rfl, hc, hcs⟩, -⟩ := hs
      exact .inr ⟨assembles_word hc hcs, ne_of_pred hc (by decide)⟩
    · rcases hs with ⟨w, rfl, -⟩ | h
      · exact .inl ⟨w, rfl⟩
      · exact .inr (assembles_keyword h (by decide) (by decide))
    · obtain rfl : text = ['*'] := hs
      exact .inr ⟨assembles_asterisk, by decide⟩

/-- The assembler reads what is recorded if the record is closed, and only then. -/
theorem nextToken_record {r : Tran.Token} (hr : r.Pooled) (rest : Text) :
    ∃ tok rest', nextToken (' ' :: r.text ++ '\n' :: rest) = some (tok, rest') ∧
      (ClosedRecord r → tok.text = (record r).2 ∧ rest' = '\n' :: rest) ∧ (tok.text = (record r).2 → ClosedRecord r) := by
  rcases pooled_assembles hr with ⟨w, hw⟩ | ⟨ha, hq⟩
  · have hrec : (record r).2 = w := by simp [record, hw]
    have hclosed : ClosedRecord r ↔ Closed w := by simp [ClosedRecord, hw]
    rw [hw, nextToken_quoted, hrec, hclosed]
    refine ⟨_, _, rfl, fun h => ?_, closed_of_quoted⟩
    rw [quoted_closed h]
    exact ⟨rfl, rfl⟩
  · have hrec : (record r).2 = r.text := by
      unfold record
      split
      · rename_i text e
        rw [e] at hq
        exact absurd rfl hq
      · rfl
    have hclosed : ClosedRecord r := by
      unfold ClosedRecord
      split
      · rename_i text e
        rw [e] at hq
        exact absurd rfl hq
      · trivial
    obtain ⟨type, h⟩ := ha rest
    exact ⟨_, _, h, fun _ => ⟨hrec.symm, rfl⟩, fun _ => hclosed⟩

/-! ### Successful steps -/

section Steps

variable {s s' : CState} {u : Unit}

theorem getLookaheadToken_ok {tok : Token} : getLookaheadToken s = .ok tok s' ↔ s.lookahead = tok ∧ s = s' := by
  simp only [getLookaheadToken, bind_ok, get_ok, pure_ok]
  constructor
  · rintro ⟨_, _, ⟨rfl, rfl⟩, rfl, rfl⟩
    exact ⟨rfl, rfl⟩
  · rintro ⟨rfl, rfl⟩
    exact ⟨_, _, ⟨rfl, rfl⟩, rfl, rfl⟩

theorem consume_ok : consume s = .ok u s' ↔
    ∃ tok input, nextToken s.input = some (tok, input) ∧ s' = { s with input := input, lookahead := tok } := by
  simp only [consume, bind_ok, get_ok]
  constructor
  · rintro ⟨_, _, ⟨rfl, rfl⟩, h⟩
    cases hn : nextToken s.input with
    | none =>
      rw [hn] at h
      exact (throw_ok.mp h).elim
    | some p =>
      rw [hn] at h
      exact ⟨p.1, p.2, rfl, (set_ok.mp h).symm⟩
  · rintro ⟨tok, input, hn, rfl⟩
    refine ⟨_, _, ⟨rfl, rfl⟩, ?_⟩
    rw [hn]
    rfl

theorem matchType_ok {type : Ty} : matchType type s = .ok u s' ↔ s.lookahead.type = type ∧ consume s = .ok u s' := by
  simp only [matchType, bind_ok, getLookaheadToken_ok]
  constructor
  · rintro ⟨_, _, ⟨rfl, rfl⟩, h⟩
    by_cases ht : s.lookahead.type = type
    · rw [if_neg (not_not.mpr ht)] at h
      exact ⟨ht, h⟩
    · rw [if_pos ht] at h
      obtain ⟨_, _, hx, -⟩ := bind_ok.mp h
      exact (throw_ok.mp hx).elim
  · rintro ⟨ht, h⟩
    refine ⟨_, _, ⟨rfl, rfl⟩, ?_⟩
    rw [if_neg (not_not.mpr ht)]
    exact h

theorem readInt_ok {text : Text} {z : ℤ} : readInt text s = .ok z s' ↔ stoi text = some z ∧ s = s' := by
  unfold readInt
  cases stoi text with
  | none => simp [throw_ok]
  | some z' => rw [pure_ok, Option.some.injEq]

theorem putData_ok {bytes : List ℕ} :
    putData bytes s = .ok u s' ↔ s.data.length + bytes.length ≤ capacity ∧ s' = { s with data := s.data ++ bytes } := by
  simp only [putData, bind_ok, get_ok]
  constructor
  · rintro ⟨_, _, ⟨rfl, rfl⟩, h⟩
    by_cases hc : s.data.length + bytes.length > capacity
    · rw [if_pos hc] at h
      obtain ⟨_, _, hx, -⟩ := bind_ok.mp h
      exact (throw_ok.mp hx).elim
    · rw [if_neg hc] at h
      exact ⟨Nat.le_of_not_lt hc, (set_ok.mp h).symm⟩
  · rintro ⟨hc, rfl⟩
    refine ⟨_, _, ⟨rfl, rfl⟩, ?_⟩
    rw [if_neg (Nat.not_lt.mpr hc)]
    rfl

end Steps

/-! ### The records of the segment -/

/-- The bytes of a record. -/
def recordBytes (type : ℤ) (text : Text) : List ℕ := byte type :: (int16Bytes text.length ++ text.map Char.toNat)

theorem length_recordBytes (type : ℤ) (text : Text) : (recordBytes type text).length = 3 + text.length := by
  simp [recordBytes, int16Bytes]
  omega

/-- A record is read back where it starts. -/
theorem getRecord_append {type : ℕ} {text : Text} (ht : type < 256) (hl : text.length < 2 ^ 15) (bytes rest : List ℕ) :
    getRecord (bytes ++ recordBytes type text ++ rest) bytes.length = some (type, text) := by
  have hbyte : byte (type : ℤ) = type := by
    unfold byte
    omega
  have hsize : byte (text.length : ℤ) + 256 * byte ((text.length : ℤ) / 256) = text.length := by
    unfold byte
    omega
  rw [getRecord, List.append_assoc, List.drop_left]
  simp only [recordBytes, int16Bytes, List.cons_append, List.nil_append, hsize, hbyte]
  rw [if_pos (by simp), List.take_left' (List.length_map ..), List.map_map]
  simp [Function.comp_def, Char.ofNat_toNat]

/-- A step of the loop. -/
theorem data_succ_ok {fuel : ℕ} {offset offset' : List ℕ} {s s' : CState} (ht : s.lookahead.type ≠ .percent) :
    data (fuel + 1) offset s = .ok offset' s' ↔ ∃ z tok input tok' input', stoi s.lookahead.text = some z ∧
      nextToken s.input = some (tok, input) ∧ nextToken input = some (tok', input') ∧
      (s.data ++ recordBytes z tok.text).length ≤ capacity ∧
      data fuel (offset ++ [s.data.length]) { s with input := input', lookahead := tok', data := s.data ++ recordBytes z tok.text } =
        .ok offset' s' := by
  simp only [data, bind_ok, getLookaheadToken_ok]
  constructor
  · rintro ⟨_, _, ⟨rfl, rfl⟩, h⟩
    rw [if_neg ht] at h
    simp only [bind_ok, get_ok, readInt_ok, putData_ok, consume_ok, getLookaheadToken_ok] at h
    obtain ⟨_, _, ⟨rfl, rfl⟩, z, _, ⟨hz, rfl⟩, _, _, ⟨h1, rfl⟩, _, _, ⟨tok, input, hn, rfl⟩, _, _, ⟨rfl, rfl⟩, _, _, ⟨h2, rfl⟩,
      _, _, ⟨h3, rfl⟩, _, _, ⟨tok', input', hn', rfl⟩, h⟩ := h
    refine ⟨z, tok, input, tok', input', hz, hn, hn', ?_, ?_⟩
    · simpa [recordBytes, Nat.add_assoc, Nat.add_comm 1] using h3
    · simpa [recordBytes] using h
  · rintro ⟨z, tok, input, tok', input', hz, hn, hn', hc, h⟩
    refine ⟨_, _, ⟨rfl, rfl⟩, ?_⟩
    rw [if_neg ht]
    simp only [bind_ok, get_ok, readInt_ok, putData_ok, consume_ok, getLookaheadToken_ok]
    simp only [recordBytes, List.length_append, List.length_cons, List.length_map] at hc
    refine ⟨_, _, ⟨rfl, rfl⟩, z, _, ⟨hz, rfl⟩, (), _, ⟨?_, rfl⟩, (), _, ⟨tok, input, hn, rfl⟩, _, _, ⟨rfl, rfl⟩, (), _, ⟨?_, rfl⟩,
      (), _, ⟨?_, rfl⟩, (), _, ⟨tok', input', hn', rfl⟩, ?_⟩
    · simp only [List.length_cons, List.length_nil]
      omega
    · simp only [List.length_append, List.length_cons, List.length_nil]
      omega
    · simp only [List.length_append, List.length_cons, List.length_nil, List.length_map]
      omega
    · simpa [recordBytes] using h

/-- The loop only adds to the segment and to the offsets. -/
theorem data_grows {fuel : ℕ} {offset offset' : List ℕ} {s s' : CState} (h : data fuel offset s = .ok offset' s') :
    offset <+: offset' ∧ s.data <+: s'.data ∧ (s.data.length ≤ capacity → s'.data.length ≤ capacity) := by
  induction fuel generalizing offset s with
  | zero => exact (throw_ok.mp h).elim
  | succ fuel ih =>
    by_cases ht : s.lookahead.type = .percent
    · obtain ⟨_, _, hl, h⟩ := bind_ok.mp h
      obtain ⟨rfl, rfl⟩ := getLookaheadToken_ok.mp hl
      rw [if_pos ht] at h
      obtain ⟨rfl, rfl⟩ := pure_ok.mp h
      exact ⟨List.prefix_rfl, List.prefix_rfl, id⟩
    · obtain ⟨z, tok, input, tok', input', -, -, -, hc, h⟩ := (data_succ_ok ht).mp h
      obtain ⟨h1, h2, h3⟩ := ih h
      exact ⟨(List.prefix_append ..).trans h1, (List.prefix_append ..).trans h2, fun _ => h3 hc⟩

theorem toSchemaType_lt (type : Tran.Ty) : toSchemaType type < 256 := by cases type <;> decide

/-- The type of a record, as it is read. -/
theorem nextToken_type {blank : Text} (hb : ∀ c ∈ blank, c = ' ' ∨ c = '\n') (n : ℕ) (rest : Text) :
    nextToken (blank ++ (toText n ++ ' ' :: rest)) = some (⟨.int, toText n⟩, ' ' :: rest) := by
  have hd : ∀ c ∈ toText n, c.isDigit = true := fun c hc => toText_digits hc
  rw [nextToken_blank hb, oneToken_digits (toText_ne_nil n) hd, @number_int _ (' ' :: rest) hd rfl (show ' ' ≠ '.' by decide)]
  obtain ⟨c, ds, he⟩ := List.exists_cons_of_ne_nil (toText_ne_nil n)
  rw [he]
  exact isSpace_of_isDigit (hd c (by simp [he]))

theorem dumpData_cons (r : Tran.Token) (pool : List Tran.Token) (rest : Text) : Tran.dumpData (r :: pool) ++ rest =
    [' ', ' '] ++ (toText (toSchemaType r.type) ++ ' ' :: (' ' :: r.text ++ '\n' :: (Tran.dumpData pool ++ rest)).tail) := by
  simp [Tran.dumpData]

theorem oneToken_percent (rest : Text) : oneToken ('%' :: rest) = some (⟨.percent, ['%']⟩, rest) := by
  simp [oneToken, ch, single, consumeChar, EOI]

/-- The state is before this text. -/
def Before (s : CState) (text : Text) : Prop :=
  ∃ blank : Text, (∀ c ∈ blank, c = ' ' ∨ c = '\n') ∧ nextToken (blank ++ text) = some (s.lookahead, s.input)

/-- Before a record its type is ahead. -/
theorem Before.record {s : CState} {r : Tran.Token} {pool : List Tran.Token} {rest : Text}
    (h : Before s (Tran.dumpData (r :: pool) ++ rest)) :
    s.lookahead = ⟨.int, toText (toSchemaType r.type)⟩ ∧ s.input = ' ' :: r.text ++ '\n' :: (Tran.dumpData pool ++ rest) := by
  obtain ⟨blank, hb, hn⟩ := h
  rw [dumpData_cons, ← List.append_assoc, nextToken_type (by
    intro c hc
    rcases List.mem_append.mp hc with hc | hc
    · exact hb c hc
    · simp only [List.mem_cons, List.not_mem_nil, or_false, or_self] at hc
      exact .inl hc)] at hn
  obtain ⟨h1, h2⟩ := Prod.mk.inj (Option.some.inj hn)
  exact ⟨h1.symm, h2.symm⟩

theorem Before.percent {s : CState} {rest : Text} (h : Before s ('%' :: rest)) : s.lookahead = ⟨.percent, ['%']⟩ ∧ s.input = rest := by
  obtain ⟨blank, hb, hn⟩ := h
  rw [nextToken_blank hb rfl, oneToken_percent] at hn
  obtain ⟨h1, h2⟩ := Prod.mk.inj (Option.some.inj hn)
  exact ⟨h1.symm, h2.symm⟩

theorem stoi_type (type : Tran.Ty) : stoi (toText (toSchemaType type)) = some (toSchemaType type : ℤ) := by
  rw [stoi_toText, int32_eq_some]
  have := toSchemaType_lt type
  exact ⟨by omega, rfl⟩

/-- The records that the offsets from `n` on stand for. -/
def Stored (pool : List Tran.Token) (offset : List ℕ) (n : ℕ) (bytes : List ℕ) : Prop :=
  ∀ i r, pool[i]? = some r → ∃ o, offset[n + i]? = some o ∧ getRecord bytes o = some (record r)

/-- The bytes of the data records. -/
def poolBytes (pool : List Tran.Token) : List ℕ := pool.flatMap fun r => recordBytes (record r).1 (record r).2

/-- After a record there is a token. -/
theorem nextToken_dumpData (pool : List Tran.Token) (rest : Text) :
    ∃ tok input, nextToken ('\n' :: (Tran.dumpData pool ++ '%' :: rest)) = some (tok, input) := by
  cases pool with
  | nil =>
    have h := @nextToken_blank ['\n'] ('%' :: rest) (by simp) rfl
    rw [oneToken_percent] at h
    exact ⟨_, _, h⟩
  | cons r pool =>
    rw [dumpData_cons]
    exact ⟨_, _, @nextToken_type ('\n' :: [' ', ' ']) (by simp) (toSchemaType r.type) _⟩

/-- Records that have been stored as they are were closed. -/
theorem closed_of_stored {pool : List Tran.Token} (hp : ∀ r ∈ pool, r.Pooled) {rest : Text} {fuel : ℕ} {offset offset' : List ℕ}
    {s s' : CState} (hb : Before s (Tran.dumpData pool ++ '%' :: rest)) (h : data fuel offset s = .ok offset' s')
    (hs : Stored pool offset' offset.length s'.data) : (∀ r ∈ pool, ClosedRecord r) ∧ s'.data = s.data ++ poolBytes pool := by
  induction pool generalizing fuel offset s with
  | nil =>
    cases fuel with
    | zero => exact (throw_ok.mp h).elim
    | succ fuel =>
      obtain ⟨_, _, hl, h⟩ := bind_ok.mp h
      obtain ⟨rfl, rfl⟩ := getLookaheadToken_ok.mp hl
      rw [hb.percent.1, if_pos rfl] at h
      obtain ⟨-, rfl⟩ := pure_ok.mp h
      exact ⟨by simp, by simp [poolBytes]⟩
  | cons r pool ih =>
    obtain ⟨hl, hi⟩ := hb.record
    cases fuel with
    | zero => exact (throw_ok.mp h).elim
    | succ fuel =>
      obtain ⟨z, tok, input, tok', input', hz, hn, hn', hc, h⟩ := (data_succ_ok fun e => by rw [hl] at e; cases e).mp h
      rw [hl, stoi_type] at hz
      obtain rfl := Option.some.inj hz
      rw [hi] at hn
      obtain ⟨tok2, rest', hn2, h1, h2⟩ := nextToken_record (hp r (List.mem_cons_self ..)) (Tran.dumpData pool ++ '%' :: rest)
      obtain ⟨rfl, rfl⟩ := Prod.mk.inj (Option.some.inj (hn2.symm.trans hn))
      -- what is stored at the offset is the text of the token
      obtain ⟨⟨more, rfl⟩, ⟨bytes, hbytes⟩, -⟩ := data_grows h
      obtain ⟨o, ho, hrec⟩ := hs 0 r rfl
      have hrec' : getRecord s'.data s.data.length = some (toSchemaType r.type, tok2.text) := by
        rw [← hbytes]
        refine getRecord_append (toSchemaType_lt _) ?_ _ _
        rw [List.length_append, length_recordBytes] at hc
        have : capacity = 8192 := rfl
        omega
      obtain rfl : s.data.length = o := by simpa using ho
      have hr : ClosedRecord r := h2 (Prod.mk.inj (Option.some.inj (hrec'.symm.trans hrec))).2
      obtain ⟨htext, rfl⟩ := h1 hr
      have hb' : Before { s with input := input', lookahead := tok', data := s.data ++ recordBytes (toSchemaType r.type) tok2.text }
          (Tran.dumpData pool ++ '%' :: rest) := ⟨['\n'], by simp, hn'⟩
      obtain ⟨ih1, ih2⟩ := ih (fun r hr => hp r (List.mem_cons_of_mem _ hr)) hb' h (by
        intro i r' hr'
        have := hs (i + 1) r' hr'
        rw [List.length_append, List.length_singleton]
        rwa [Nat.add_assoc, Nat.add_comm 1])
      refine ⟨List.forall_mem_cons.mpr ⟨hr, ih1⟩, ?_⟩
      rw [ih2, htext, poolBytes, poolBytes, List.flatMap_cons, List.append_assoc]
      rfl

/-- Closed records are stored, if they fit. -/
theorem data_closed {pool : List Tran.Token} (hp : ∀ r ∈ pool, r.Pooled) (hc : ∀ r ∈ pool, ClosedRecord r) {rest : Text} {fuel : ℕ}
    (hf : pool.length < fuel) (offset : List ℕ) {s : CState} (hb : Before s (Tran.dumpData pool ++ '%' :: rest))
    (hfit : (s.data ++ poolBytes pool).length ≤ capacity) :
    ∃ offset' s', data fuel offset s = .ok (offset ++ offset') s' ∧ offset'.length = pool.length ∧
      Stored pool (offset ++ offset') offset.length s'.data ∧
      s' = { input := rest, lookahead := ⟨.percent, ['%']⟩, code := s.code, data := s.data ++ poolBytes pool } := by
  induction pool generalizing fuel offset s with
  | nil =>
    obtain ⟨fuel, rfl⟩ := Nat.exists_eq_succ_of_ne_zero (Nat.ne_of_gt hf)
    obtain ⟨hl, hi⟩ := hb.percent
    refine ⟨[], s, ?_, rfl, fun i r hr => (by simp at hr), ?_⟩
    · rw [data, bind_ok]
      refine ⟨_, _, getLookaheadToken_ok.mpr ⟨rfl, rfl⟩, ?_⟩
      rw [hl, if_pos rfl, List.append_nil]
      rfl
    · obtain ⟨input, lookahead, code, bytes⟩ := s
      simp only at hl hi
      simp [poolBytes, hl, hi]
  | cons r pool ih =>
    obtain ⟨fuel, rfl⟩ := Nat.exists_eq_succ_of_ne_zero (Nat.ne_of_gt (Nat.lt_of_le_of_lt (Nat.zero_le _) hf))
    obtain ⟨hl, hi⟩ := hb.record
    obtain ⟨tok, rest', hn, h1, -⟩ := nextToken_record (hp r (List.mem_cons_self ..)) (Tran.dumpData pool ++ '%' :: rest)
    obtain ⟨htext, rfl⟩ := h1 (hc r (List.mem_cons_self ..))
    obtain ⟨tok', input', hn'⟩ := nextToken_dumpData pool rest
    have hbytes : s.data ++ poolBytes (r :: pool) = s.data ++ recordBytes (toSchemaType r.type) tok.text ++ poolBytes pool := by
      rw [htext, poolBytes, poolBytes, List.flatMap_cons, List.append_assoc]
      rfl
    rw [hbytes] at hfit
    have hb' : Before { s with input := input', lookahead := tok', data := s.data ++ recordBytes (toSchemaType r.type) tok.text }
        (Tran.dumpData pool ++ '%' :: rest) := ⟨['\n'], by simp, hn'⟩
    obtain ⟨offset', s', h, hlen, hst, hs'⟩ := ih (fun r hr => hp r (List.mem_cons_of_mem _ hr))
      (fun r hr => hc r (List.mem_cons_of_mem _ hr)) (Nat.lt_of_succ_lt_succ hf) (offset ++ [s.data.length]) hb' hfit
    refine ⟨s.data.length :: offset', s', ?_, by rw [List.length_cons, hlen, List.length_cons], ?_, by rw [hs', hbytes]⟩
    · refine (data_succ_ok fun e => by rw [hl] at e; cases e).mpr
        ⟨toSchemaType r.type, tok, _, tok', input', ?_, by rw [hi]; exact hn, hn', ?_, ?_⟩
      · rw [hl, stoi_type]
      · exact Nat.le_trans (by simp) hfit
      · rw [h, List.append_assoc]
        rfl
    · rintro (_ | i) r' hr'
      · obtain rfl := Option.some.inj hr'
        refine ⟨s.data.length, by simp, ?_⟩
        rw [hs']
        simp only
        rw [getRecord_append (toSchemaType_lt _), htext]
        · rfl
        · have : capacity = 8192 := rfl
          simp only [List.length_append, length_recordBytes] at hfit
          omega
      · have := hst i r' hr'
        rw [List.length_append, List.length_singleton, List.append_assoc] at this
        rwa [Nat.add_comm i, ← Nat.add_assoc]

/-! ### The segment -/

/-- The text behind the point of `.TEXT`. -/
def textInput (code : List Tran.Line) : Text := "TEXT\n".toList ++ Tran.dumpCode code.reverse ++ "%%\n".toList

/-- The assembler reads these data records and instructions from the text of the translator:
the records are stored as they are recorded, and the instructions are what is ahead. -/
def ReadsData (pool : List Tran.Token) (code : List Tran.Line) (offset : List ℕ) (s' : CState) : Prop :=
  offset.length = pool.length ∧ Stored pool offset 0 s'.data ∧ s'.lookahead = ⟨.dot, ['.']⟩ ∧ s'.input = textInput code

/-- The data segment is what the translator meant. -/
def Survives (pool : List Tran.Token) (code : List Tran.Line) : Prop :=
  ∃ fuel s offset s', start (Tran.dump pool code) = some s ∧ dataSegment fuel s = .ok offset s' ∧ ReadsData pool code offset s'

theorem toList_DATA : ".DATA\n".toList = '.' :: ("DATA".toList ++ ['\n']) := rfl

theorem toList_TEXT : "%%\n.TEXT\n".toList = '%' :: '%' :: '\n' :: '.' :: "TEXT\n".toList := rfl

theorem dump_eq (pool : List Tran.Token) (code : List Tran.Line) :
    Tran.dump pool code = '.' :: ("DATA".toList ++ '\n' :: (Tran.dumpData pool ++ '%' :: '%' :: '\n' :: '.' :: textInput code)) := by
  have happ : ∀ a b c d e : Text, '.' :: (a ++ ['\n']) ++ b ++ '%' :: '%' :: '\n' :: '.' :: c ++ d ++ e =
      '.' :: (a ++ '\n' :: (b ++ '%' :: '%' :: '\n' :: '.' :: (c ++ d ++ e))) := by simp
  unfold Tran.dump textInput
  rw [toList_DATA, toList_TEXT]
  exact happ _ _ _ _ _

theorem start_dump (pool : List Tran.Token) (code : List Tran.Line) : start (Tran.dump pool code) = some
    { input := "DATA".toList ++ '\n' :: (Tran.dumpData pool ++ '%' :: '%' :: '\n' :: '.' :: textInput code)
      lookahead := ⟨.dot, ['.']⟩, code := [], data := [] } := by
  have h := @nextToken_blank [] (Tran.dump pool code) (by simp) (by rw [dump_eq]; rfl)
  rw [List.nil_append, dump_eq, oneToken_point] at h
  rw [start, dump_eq, h]
  rfl

theorem nextToken_DATA (rest : Text) : nextToken ("DATA".toList ++ '\n' :: rest) = some (⟨.data, "DATA".toList⟩, '\n' :: rest) := by
  have h := @nextToken_blank [] ("DATA".toList ++ '\n' :: rest) (by simp) rfl
  rw [List.nil_append] at h
  rw [h]
  exact @oneToken_name 'D' ("ATA".toList) ('\n' :: rest) (by decide) (by decide) (.inl rfl)

theorem nextToken_TEXT (code : List Tran.Line) :
    nextToken ('\n' :: '.' :: textInput code) = some (⟨.dot, ['.']⟩, textInput code) := by
  have h := @nextToken_blank ['\n'] ('.' :: textInput code) (by simp) rfl
  rw [oneToken_point] at h
  exact h

/-- The state before the data records. -/
theorem before_data (pool : List Tran.Token) (rest : Text) : ∃ tok input,
    nextToken ('\n' :: (Tran.dumpData pool ++ '%' :: rest)) = some (tok, input) ∧
      Before { input := input, lookahead := tok, code := [], data := [] } (Tran.dumpData pool ++ '%' :: rest) := by
  obtain ⟨tok, input, hn⟩ := nextToken_dumpData pool rest
  exact ⟨tok, input, hn, ['\n'], by simp, hn⟩

/-- The segment is the loop between the lines before and behind the records. -/
theorem dataSegment_ok {pool : List Tran.Token} {code : List Tran.Line} {fuel : ℕ} {s : CState}
    (hs : start (Tran.dump pool code) = some s) :
    ∃ s1, Before s1 (Tran.dumpData pool ++ '%' :: '%' :: '\n' :: '.' :: textInput code) ∧ s1.data = [] ∧ s1.code = [] ∧
      ∀ offset s', dataSegment fuel s = .ok offset s' ↔ ∃ s2, data fuel [] s1 = .ok offset s2 ∧ s2.lookahead.type = .percent ∧
        ∃ s3, consume s2 = .ok () s3 ∧ s3.lookahead.type = .percent ∧ consume s3 = .ok () s' := by
  rw [start_dump] at hs
  obtain rfl := Option.some.inj hs
  obtain ⟨tok, input, hn, hb⟩ := before_data pool ('%' :: '\n' :: '.' :: textInput code)
  refine ⟨_, hb, rfl, rfl, fun offset s' => ?_⟩
  have h1 := nextToken_DATA (Tran.dumpData pool ++ '%' :: '%' :: '\n' :: '.' :: textInput code)
  rw [dataSegment]
  simp only [bind_ok, matchType_ok, pure_ok]
  constructor
  · rintro ⟨_, _, ⟨-, hc1⟩, _, _, ⟨-, hc2⟩, _, s2, hd, _, s3, ⟨ht, hc3⟩, _, _, ⟨ht', hc4⟩, rfl, rfl⟩
    obtain ⟨tok1, input1, hn1, rfl⟩ := consume_ok.mp hc1
    obtain ⟨rfl, rfl⟩ := Prod.mk.inj (Option.some.inj (h1.symm.trans hn1))
    obtain ⟨tok2, input2, hn2, rfl⟩ := consume_ok.mp hc2
    obtain ⟨rfl, rfl⟩ := Prod.mk.inj (Option.some.inj (hn.symm.trans hn2))
    exact ⟨s2, hd, ht, s3, hc3, ht', hc4⟩
  · rintro ⟨s2, hd, ht, s3, hc3, ht', hc4⟩
    exact ⟨(), _, ⟨trivial, consume_ok.mpr ⟨_, _, h1, rfl⟩⟩, (), _, ⟨rfl, consume_ok.mpr ⟨tok, input, hn, rfl⟩⟩, offset, s2, hd, (), s3,
      ⟨ht, hc3⟩, (), s', ⟨ht', hc4⟩, rfl, rfl⟩

/-- The data segment is what the translator meant if all records are closed and fit. -/
theorem survives_iff {pool : List Tran.Token} (hp : ∀ r ∈ pool, r.Pooled) (code : List Tran.Line) :
    Survives pool code ↔ (∀ r ∈ pool, ClosedRecord r) ∧ (poolBytes pool).length ≤ capacity := by
  constructor
  · rintro ⟨fuel, s, offset, s', hs, hd, hlen, hst, -, -⟩
    obtain ⟨s1, hb, hdata, -, hiff⟩ := @dataSegment_ok _ _ fuel _ hs
    obtain ⟨s2, hloop, -, s3, hc3, -, hc4⟩ := (hiff offset s').mp hd
    obtain ⟨tok3, input3, -, rfl⟩ := consume_ok.mp hc3
    obtain ⟨tok4, input4, -, rfl⟩ := consume_ok.mp hc4
    obtain ⟨h1, h2⟩ := closed_of_stored hp hb hloop hst
    obtain ⟨-, -, hfit⟩ := data_grows hloop
    rw [h2, hdata, List.nil_append] at hfit
    exact ⟨h1, hfit (Nat.zero_le _)⟩
  · rintro ⟨hc, hfit⟩
    have hs := start_dump pool code
    obtain ⟨s1, hb, hdata, hcode, hiff⟩ := @dataSegment_ok _ _ (pool.length + 1) _ hs
    obtain ⟨offset, s2, hd, hlen, hst, rfl⟩ := data_closed hp hc (Nat.lt_succ_self _) [] hb (by rw [hdata]; exact hfit)
    refine ⟨_, _, offset, { input := textInput code, lookahead := ⟨.dot, ['.']⟩, code := s1.code, data := s1.data ++ poolBytes pool },
      hs, (hiff _ _).mpr ⟨_, hd, rfl, _, consume_ok.mpr ⟨⟨.percent, ['%']⟩, '\n' :: '.' :: textInput code, ?_, rfl⟩, rfl,
        consume_ok.mpr ⟨_, _, nextToken_TEXT code, rfl⟩⟩, hlen, hst, rfl, rfl⟩
    have h := @nextToken_blank [] ('%' :: '\n' :: '.' :: textInput code) (by simp) rfl
    rwa [List.nil_append, oneToken_percent] at h

/-! ### String literals -/

/-- The characters of a string literal of SQL, between its quotation marks. -/
def contents (input : Text) : Text := (consumeChar input).takeWhile fun c => c ≠ '"' && c ≠ '\'' && c ≠ EOI

theorem varchar_contents (input : Text) : (Tran.varchar input).1 = ⟨.varchar, '"' :: contents input ++ ['"']⟩ := rfl

theorem closedRecord_varchar (input : Text) : ClosedRecord (Tran.varchar input).1 ↔ trailing (contents input) % 2 = 0 := by
  rw [← closed_iff_trailing]
  · rw [varchar_contents]
    simp [ClosedRecord]
  · intro c hc
    have := Tran.mem_takeWhile hc
    simp only [Bool.and_eq_true, decide_eq_true_eq] at this
    exact ⟨this.1.1, this.2⟩

theorem pooled_varchar (input : Text) : (Tran.varchar input).1.Pooled :=
  .token (Tran.shape_varchar input) (by simp [varchar_contents])

/-- A string literal is recorded by its characters, at every place among the data records, and
what follows it is read as it is, if there are an even number of backslashes at its end, if
the other records are closed and if all of them fit. -/
theorem literal_survives_iff (input : Text) {before after : List Tran.Token} (hbefore : ∀ r ∈ before, r.Pooled)
    (hafter : ∀ r ∈ after, r.Pooled) (code : List Tran.Line) :
    record (Tran.varchar input).1 = (13, contents input) ∧
      (Survives (before ++ (Tran.varchar input).1 :: after) code ↔ trailing (contents input) % 2 = 0 ∧
        (∀ r ∈ before ++ after, ClosedRecord r) ∧ (poolBytes (before ++ (Tran.varchar input).1 :: after)).length ≤ capacity) := by
  refine ⟨by simp [varchar_contents, record, toSchemaType], ?_⟩
  have hp : ∀ r ∈ before ++ (Tran.varchar input).1 :: after, r.Pooled := by
    intro r hr
    rcases List.mem_append.mp hr with hr | hr
    · exact hbefore r hr
    · rcases List.mem_cons.mp hr with rfl | hr
      · exact pooled_varchar input
      · exact hafter r hr
  rw [survives_iff hp, ← closedRecord_varchar, ← and_assoc]
  refine and_congr_left fun _ => ?_
  constructor
  · intro h
    refine ⟨h _ (by simp), fun r hr => h r ?_⟩
    rcases List.mem_append.mp hr with hr | hr <;> simp [hr]
  · rintro ⟨h, hrest⟩ r hr
    rcases List.mem_append.mp hr with hr | hr
    · exact hrest r (List.mem_append_left _ hr)
    · rcases List.mem_cons.mp hr with rfl | hr
      · exact h
      · exact hrest r (List.mem_append_right _ hr)

/-- A backslash inside of a literal stays. -/
theorem inner_backslash_survives : record (Tran.varchar "'a\\b');".toList).1 = (13, contents "'a\\b');".toList) ∧
    (Survives ([⟨.schemaVarchar, Tran.empty⟩] ++ (Tran.varchar "'a\\b');".toList).1 :: []) [.ret] ↔
      trailing (contents "'a\\b');".toList) % 2 = 0 ∧ (∀ r ∈ [(⟨.schemaVarchar, Tran.empty⟩ : Tran.Token)] ++ [], ClosedRecord r) ∧
        (poolBytes ([⟨.schemaVarchar, Tran.empty⟩] ++ (Tran.varchar "'a\\b');".toList).1 :: [])).length ≤ capacity) :=
  literal_survives_iff _ (by
    rintro r (_ | ⟨_, ⟨⟩⟩)
    exact .first) (by simp) _

/-- A backslash at the end of a literal takes its quotation mark. -/
theorem last_backslash_not_survives : ¬Survives [⟨.schemaVarchar, Tran.empty⟩, (Tran.varchar "'a\\');".toList).1] [.ret] := by
  rw [survives_iff]
  · rintro ⟨h, -⟩
    have hodd := (closedRecord_varchar _).mp (h _ (List.mem_cons_of_mem _ (List.mem_singleton_self _)))
    revert hodd
    decide
  · rintro r (_ | ⟨_, _ | ⟨_, ⟨⟩⟩⟩)
    · exact .first
    · exact pooled_varchar _

end RedB.Comp
