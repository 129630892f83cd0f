import RedB.Tran.Lexer

/-!
# The parser of the translator

The parser turns SQL into a list of instructions, last instruction first, and a list of
data records. A record is looked up by its text alone before it is added. The mnemonics
are those of the translator; which of them the assembler knows is the assembler's affair.
-/

namespace RedB.Tran

/-- What a `CALL` calls. -/
inductive Op where
  | add | addclmn | addfgnkey | addndx | addunindx | alt | altdb | altusr | and | cmpeq
  | cmpge | cmpgt | cmple | cmplt | cmpne | crjoin | crtdb | crttbl | crtusr | delete
  | describe | div | dropclmn | dropdb | dropfgnkey | dropndx | droptbl | dropusr | grant | injoin
  | insert | loaddata | ltjoin | mkassign | mkastexpr | mkclmndef | mkclmnexpr | mkexpr | mkexprhdr | mkexprlst
  | mkfgnkey | mkprikey | mkunikey | mkusr | mkwrksch | mul | negate | not | on | opntbl
  | or | orderby | revoke | rtjoin | select | setoutf | showdbs | showtbls | slcktbl | sub
  | ulcktbl | update | use | using | where
deriving DecidableEq, Repr

/-- The mnemonic. -/
def Op.text : Op → String
  | .add => "ADD" | .addclmn => "ADDCLMN" | .addfgnkey => "ADDFGNKEY" | .addndx => "ADDNDX" | .addunindx => "ADDUNINDX"
  | .alt => "ALT" | .altdb => "ALTDB" | .altusr => "ALTUSR" | .and => "AND" | .cmpeq => "CMPEQ" | .cmpge => "CMPGE"
  | .cmpgt => "CMPGT" | .cmple => "CMPLE" | .cmplt => "CMPLT" | .cmpne => "CMPNE" | .crjoin => "CRJOIN" | .crtdb => "CRTDB"
  | .crttbl => "CRTTBL" | .crtusr => "CRTUSR" | .delete => "DELETE" | .describe => "DESCRIBE" | .div => "DIV"
  | .dropclmn => "DROPCLMN" | .dropdb => "DROPDB" | .dropfgnkey => "DROPFGNKEY" | .dropndx => "DROPNDX"
  | .droptbl => "DROPTBL" | .dropusr => "DROPUSR" | .grant => "GRANT" | .injoin => "INJOIN" | .insert => "INSERT"
  | .loaddata => "LOADDATA" | .ltjoin => "LTJOIN" | .mkassign => "MKASSIGN" | .mkastexpr => "MKASTEXPR"
  | .mkclmndef => "MKCLMNDEF" | .mkclmnexpr => "MKCLMNEXPR" | .mkexpr => "MKEXPR" | .mkexprhdr => "MKEXPRHDR"
  | .mkexprlst => "MKEXPRLST" | .mkfgnkey => "MKFGNKEY" | .mkprikey => "MKPRIKEY" | .mkunikey => "MKUNIKEY"
  | .mkusr => "MKUSR" | .mkwrksch => "MKWRKSCH" | .mul => "MUL" | .negate => "NEGATE" | .not => "NOT" | .on => "ON"
  | .opntbl => "OPNTBL" | .or => "OR" | .orderby => "ORDERBY" | .revoke => "REVOKE" | .rtjoin => "RTJOIN"
  | .select => "SELECT" | .setoutf => "SETOUTF" | .showdbs => "SHOWDBS" | .showtbls => "SHOWTBLS" | .slcktbl => "SLCKTBL"
  | .sub => "SUB" | .ulcktbl => "ULCKTBL" | .update => "UPDATE" | .use => "USE" | .using => "USING" | .where => "WHERE"

/-- A line of the program. -/
inductive Line where
  | call (op : Op)
  /-- The text is a number or what stood where a number was wanted. -/
  | push (text : Text)
  /-- The number of the data record, and the token that was meant (which is not part of the text of the line). -/
  | pusho (index : Option ℕ) (meant : Token)
  | nop
  | ret
  /-- An empty line, kept for a count. -/
  | hole
deriving DecidableEq, Repr

/-- What the parser throws. -/
inductive Err where
  /-- `ERRNO_TOKEN_ERROR` -/
  | token
  /-- The token asked for has not been loaded: the source reads behind its vector. -/
  | range
  /-- Out of fuel, which the source does not know. -/
  | fuel
deriving DecidableEq, Repr

/-- The state of the parser. -/
structure PState where
  /-- `m_lexer` -/
  lexer : Lexer
  /-- `m_lookahead` -/
  lookahead : List Token
  /-- `m_code` -/
  code : List Line
  /-- `m_data` -/
  data : List Token
  /-- `m_index` -/
  index : ℕ
  /-- `m_mark`, nothing for `-1`. -/
  mark : Option ℕ
deriving DecidableEq, Repr

/-- Steps of the parser. The state stays as it is when something is thrown. -/
abbrev P := EStateM Err PState

/-- The text of an empty literal. -/
def empty : Text := ['"', '"']

/-! ### Tokens -/

/-- Loads `n` tokens. -/
def loadTokens : ℕ → P Unit
  | 0 => pure ()
  | n + 1 => do
    let s ← get
    match nextToken s.lexer with
    | (some tok, lexer) => set { s with lexer := lexer, lookahead := s.lookahead ++ [tok] }
    | (none, lexer) => do
      set { s with lexer := lexer }
      throw .token
    loadTokens n

/-- `parser::load_lookahead` -/
def loadLookahead (i : ℕ) : P Unit := do
  let s ← get
  loadTokens (s.index + i - s.lookahead.length)

/-- `parser::get_lookahead_token` -/
def getLookaheadToken (i : ℕ) : P Token := do
  loadLookahead i
  let s ← get
  match s.lookahead[s.index + i]? with
  | some tok => pure tok
  | none => throw .range

/-- `parser::get_lookahead_type` -/
def getLookaheadType (i : ℕ) : P Ty := do
  let tok ← getLookaheadToken i
  pure tok.type

/-- The state after a token, before the next one is loaded. -/
def PState.advance (s : PState) : PState :=
  if s.mark = none ∧ s.lookahead.length ≤ s.index + 1 then { s with index := 0, lookahead := [] }
  else { s with index := s.index + 1 }

/-- `parser::consume` -/
def consume : P Unit := do
  modify PState.advance
  loadLookahead 1

/-- `parser::match` -/
def matchType (type : Ty) : P Unit := do
  let found ← getLookaheadType 0
  if found ≠ type then throw .token
  consume

/-- `parser::match` for each of a list. -/
def matchAll : List Ty → P Unit
  | [] => pure ()
  | type :: list => do
    matchType type
    matchAll list

/-- `parser::speculate_list`: whether the tokens ahead are of these types. What is thrown
is caught, and what has been loaded stays loaded. -/
def speculateList (list : List Ty) : P Bool := fun s =>
  match matchAll list { s with mark := some s.index } with
  | .ok _ s' => .ok true { s' with index := s'.mark.getD 0, mark := none }
  | .error _ s' => .ok false { s' with index := s'.mark.getD 0, mark := none }

/-- `parser::speculate_list_to` -/
def speculateListTo : List Ty → P Bool
  | [] => pure false
  | type :: list => do
    let found ← getLookaheadType 0
    if found = type then pure true else speculateListTo list

/-! ### Data records -/

/-- `parser::find_data` -/
def findData (data : List Token) (text : Text) : Option ℕ := data.findIdx? fun tok => tok.text = text

/-- `parser::data (int32_t)`: the line that pushes the token ahead. -/
def pushData (type : Ty) : P Line := do
  let tok ← getLookaheadToken 0
  let s ← get
  let index := (findData s.data tok.text).getD s.data.length
  if findData s.data tok.text = none then set { s with data := s.data ++ [tok] }
  matchType type
  pure (.pusho (some index) tok)

/-- `parser::data (std::string const&)` -/
def pushText (text : Text) : P Line := do
  let s ← get
  let index := (findData s.data text).getD s.data.length
  if findData s.data text = none then set { s with data := s.data ++ [Token.mk .varchar text] }
  pure (.pusho (some index) { type := .varchar, text := text })

/-- The line that pushes the empty text, which is found. -/
def pushEmpty : P Line := do
  let s ← get
  pure (.pusho (findData s.data empty) { type := .varchar, text := empty })

/-- `m_code.push_back` -/
def emit (line : Line) : P Unit := modify fun s => { s with code := s.code ++ [line] }

/-- `m_code.push_back` for each of a list. -/
def emitAll (lines : List Line) : P Unit := modify fun s => { s with code := s.code ++ lines }

/-- `m_code[mrk] = line` -/
def patch (mrk : ℕ) (line : Line) : P Unit := modify fun s => { s with code := s.code.set mrk line }

/-- `m_code.size()` -/
def codeSize : P ℕ := do
  let s ← get
  pure s.code.length

/-- `lexer::init` and `parser::init` -/
def start (sql : Text) : PState :=
  { lexer := ⟨sql, []⟩, lookahead := [], code := [], data := [⟨.schemaVarchar, empty⟩], index := 0, mark := none }

end RedB.Tran
