import RedB.Tran.Text

/-!
# The lexer of the translator

The lexer reads a text that ends at its last character or at the character 255, whichever
comes first. It keeps the list of all tokens it has seen, white space and comments
included, from which the headers of a result are made.
-/

namespace RedB.Tran

/-- Token types. -/
inductive Ty where
  | add | after | all | alter | and | as | asterisk | atsign | autoInc | backslash
  | by | char | column | comma | comment | create | cross | data | database | databases
  | date | datetime | delete | describe | dot | drop | enum | eq | file | first
  | float | for | foreign | from | grant | ge | gt | hashtag | identified | ignore | index
  | infile | inner | insert | int | into | join | key | left | lParen | le
  | limit | lt | load | minus | mod | name | ne | not | nullSym | on
  | or | order | outer | outfile | password | plus | primary | references | reload | rename
  | replace | revoke | right | rParen | select | semicolon | set | show | shutdown | table
  | tables | timestamp | to | unique | unsigned | update | use | user | using | values
  | varchar | where | whitespace | zerofill
  /-- The end of the input. -/
  | eoi
  /-- `schema::TYPE_VARCHAR`, of the first data record. -/
  | schemaVarchar
deriving DecidableEq, Repr

/-- A token. -/
structure Token where
  /-- `m_type` -/
  type : Ty
  /-- `m_text` -/
  text : Text
deriving DecidableEq, Repr

/-- The symbol table. -/
def symbol : List (String × Ty) :=
  [("ADD", .add), ("AFTER", .after), ("ALL", .all), ("ALTER", .alter), ("AND", .and), ("AS", .as),
    ("AUTO_INCREMENT", .autoInc), ("BY", .by), ("CHAR", .char), ("COLUMN", .column), ("CREATE", .create),
    ("CROSS", .cross), ("DATA", .data), ("DATABASE", .database), ("DATABASES", .databases), ("DATE", .date),
    ("DATETIME", .datetime), ("DELETE", .delete), ("DESCRIBE", .describe), ("DROP", .drop), ("ENUM", .enum),
    ("FILE", .file), ("FIRST", .first), ("FLOAT", .float), ("FOR", .for), ("FOREIGN", .foreign), ("FROM", .from),
    ("GRANT", .grant), ("IDENTIFIED", .identified), ("INDEX", .index), ("INFILE", .infile), ("INNER", .inner),
    ("INSERT", .insert), ("INT", .int), ("INTO", .into), ("JOIN", .join), ("KEY", .key), ("LEFT", .left),
    ("LIMIT", .limit), ("LOAD", .load), ("MOD", .mod), ("NOT", .not), ("NULL", .nullSym), ("ON", .on), ("OR", .or),
    ("ORDER", .order), ("OUTER", .outer), ("OUTFILE", .outfile), ("PASSWORD", .password), ("PRIMARY", .primary),
    ("REFERENCES", .references), ("RELOAD", .reload), ("RENAME", .rename), ("REPLACE", .replace), ("REVOKE", .revoke),
    ("RIGHT", .right), ("SELECT", .select), ("SET", .set), ("SHOW", .show), ("SHUTDOWN", .shutdown), ("TABLE", .table),
    ("TABLES", .tables), ("TIMESTAMP", .timestamp), ("TO", .to), ("UNIQUE", .unique), ("UNSIGNED", .unsigned),
    ("UPDATE", .update), ("USE", .use), ("USER", .user), ("USING", .using), ("VALUES", .values), ("VARCHAR", .varchar),
    ("WHERE", .where)]

/-! ### Characters -/

/-- `lexer::EOI` -/
def EOI : Char := 'ÿ'

/-- `std::toupper` on each character. -/
def upper (text : Text) : Text := text.map Char.toUpper

/-- `std::tolower` on each character. -/
def lower (text : Text) : Text := text.map Char.toLower

/-- `lexer::get_symbol_type`: the table is sorted, the binary search finds what there is. -/
def getSymbolType (text : Text) : Option Ty := (symbol.find? fun s => s.1.toList = upper text).map Prod.snd

/-! ### The lexer -/

/-- `m_ch`, the first of the characters ahead. -/
def ch (input : Text) : Char := input.headD EOI

/-- `lexer::consume` -/
def consumeChar (input : Text) : Text := input.tail

/-- Takes characters while `p`. -/
def takeChars (p : Char → Bool) (input : Text) : Text × Text := (input.takeWhile p, input.dropWhile p)

/-- `lexer::comment`: the comment and what is after it. -/
def comment (input : Text) : Token × Text :=
  let (text, rest) := takeChars (fun c => c ≠ '\n' && c ≠ EOI) input.tail
  (⟨.comment, ch input :: text⟩, consumeChar rest)

/-- `lexer::ws` -/
def ws (input : Text) : Token × Text :=
  let (text, rest) := takeChars isSpace input
  (⟨.whitespace, text⟩, rest)

/-- `lexer::name` -/
def name (input : Text) : Token × Text :=
  let (text, rest) := takeChars isWord input
  (⟨(getSymbolType text).getD .name, text⟩, rest)

/-- `lexer::number` -/
def number (input : Text) : Token × Text :=
  let (value, rest) := takeChars Char.isDigit input
  if ch rest = '.' then
    let (decimals, rest) := takeChars Char.isDigit (consumeChar rest)
    (⟨.float, value ++ '.' :: decimals⟩, rest)
  else (⟨.int, value⟩, rest)

/-- `lexer::varchar`: either quotation mark ends it. -/
def varchar (input : Text) : Token × Text :=
  let (text, rest) := takeChars (fun c => c ≠ '"' && c ≠ '\'' && c ≠ EOI) (consumeChar input)
  (⟨.varchar, '"' :: text ++ ['"']⟩, consumeChar rest)

/-- `lexer::compound`: nothing if the characters are no token; what is left is what the
lexer has not consumed. -/
def compound (input : Text) : Option Token × Text :=
  let rest := consumeChar input
  match ch input with
  | '&' => if ch rest = '&' then (some ⟨.and, "&&".toList⟩, consumeChar rest) else (none, rest)
  | '.' =>
      if (ch rest).isDigit then
        let (tok, rest) := number input
        (some tok, rest)
      else (some ⟨.dot, ['.']⟩, rest)
  | '<' => if ch rest = '=' then (some ⟨.le, "<=".toList⟩, consumeChar rest) else (some ⟨.lt, ['<']⟩, rest)
  | '>' => if ch rest = '=' then (some ⟨.ge, ">=".toList⟩, consumeChar rest) else (some ⟨.gt, ['>']⟩, rest)
  | '!' => if ch rest = '=' then (some ⟨.ne, "!=".toList⟩, consumeChar rest) else (none, rest)
  | '|' => if ch rest = '|' then (some ⟨.or, "||".toList⟩, consumeChar rest) else (none, rest)
  | _ => (none, input)

/-- The tokens of one character. -/
def single (c : Char) : Option Ty :=
  match c with
  | '(' => some .lParen
  | ')' => some .rParen
  | '*' => some .asterisk
  | '+' => some .plus
  | ',' => some .comma
  | '-' => some .minus
  | '/' => some .backslash
  | ';' => some .semicolon
  | '=' => some .eq
  | '@' => some .atsign
  | _ => none

/-- Where the lexer stands. -/
structure Lexer where
  /-- The characters from `m_ch` on. -/
  input : Text
  /-- `m_token_list` -/
  tokenList : List Token
deriving DecidableEq, Repr

/-- The token that starts at a character that is not white space or `#`. -/
def oneToken (input : Text) : Option Token × Text :=
  let c := ch input
  if c = '"' ∨ c = '\'' then
    let (tok, rest) := varchar input
    (some tok, rest)
  else
    match single c with
    | some type => (some ⟨type, [c]⟩, consumeChar input)
    | none =>
        if c = '&' ∨ c = '.' ∨ c = '!' ∨ c = '<' ∨ c = '>' ∨ c = '|' then compound input
        else if c.isAlpha then
          let (tok, rest) := name input
          (some tok, rest)
        else if c.isDigit then
          let (tok, rest) := number input
          (some tok, rest)
        else (none, input)

/-- What `std::isspace` finds where `next_token` looks for white space. -/
theorem isSpace_blank {c : Char} (h : c = ' ' ∨ c = '\t' ∨ c = '\n') : isSpace c = true := by
  rcases h with rfl | rfl | rfl <;> rfl

theorem length_dropWhile_le (p : Char → Bool) (input : Text) : (input.dropWhile p).length ≤ input.length := by
  induction input with
  | nil => exact Nat.le_refl _
  | cons c input ih =>
    rw [List.dropWhile_cons]
    split
    · exact Nat.le_succ_of_le ih
    · exact Nat.le_refl _

/-- White space is consumed. -/
theorem length_ws_lt {input : Text} (h : ch input = ' ' ∨ ch input = '\t' ∨ ch input = '\n') :
    (ws input).2.length < input.length := by
  cases input with
  | nil => rcases h with h | h | h <;> cases h
  | cons c input =>
    have hc : isSpace c = true := isSpace_blank h
    simp only [ws, takeChars, List.dropWhile_cons, hc, if_true, List.length_cons]
    exact Nat.lt_succ_of_le (length_dropWhile_le ..)

/-- A comment is consumed. -/
theorem length_comment_lt {input : Text} (h : ch input = '#') : (comment input).2.length < input.length := by
  cases input with
  | nil => cases h
  | cons c input =>
    simp only [comment, takeChars, consumeChar, List.tail_cons, List.length_cons, List.length_tail]
    have := length_dropWhile_le (fun c => c ≠ '\n' && c ≠ EOI) input
    omega

/-- `lexer::next_token`: nothing if it throws. -/
def nextToken (l : Lexer) : Option Token × Lexer :=
  if ch l.input = EOI then (some ⟨.eoi, "<EOI>".toList⟩, l)
  else if _h : ch l.input = ' ' ∨ ch l.input = '\t' ∨ ch l.input = '\n' then
    nextToken ⟨(ws l.input).2, l.tokenList ++ [(ws l.input).1]⟩
  else if _h : ch l.input = '#' then
    nextToken ⟨(comment l.input).2, l.tokenList ++ [(comment l.input).1]⟩
  else
    match oneToken l.input with
    | (some tok, rest) => (some tok, ⟨rest, l.tokenList ++ [tok]⟩)
    | (none, rest) => (none, ⟨rest, l.tokenList⟩)
termination_by l.input.length
decreasing_by
  · exact length_ws_lt _h
  · exact length_comment_lt _h

end RedB.Tran
