import RedB.Tran.Parser

/-!
# The assembler

The assembler reads the text of the translator and makes the data segment and the code
segment of it. Both are buffers of 8192 bytes. Its lexer has strings of its own: a
backslash takes the next character, whatever it is.

Types of tokens are named as in the source; the mnemonics are one constructor.
-/

namespace RedB.Comp

open RedB.Tran (Op EOI ch consumeChar takeChars upper)

/-- Token types. -/
inductive Ty where
  /-- The mnemonics behind `CALL`. -/
  | op (op : Op)
  | asterisk | call | char | comma | data | dollar | dot | float | hashtag | int | lParen | nop
  | percent | plus | primary | push | pusho | quotmark | rParen | ret | text | varchar
  /-- The end of the input. -/
  | eoi
deriving DecidableEq, Repr

/-- A token. -/
structure Token where
  /-- `m_type` -/
  type : Ty
  /-- `m_text` -/
  text : Text
deriving DecidableEq, Repr

/-- The symbol table. -/
def symbol : List (String × Ty) :=
  [("ADD", .op .add), ("ADDCLMN", .op .addclmn), ("ADDFGNKEY", .op .addfgnkey), ("ADDNDX", .op .addndx), ("ALTUSR", .op .altusr),
    ("AND", .op .and), ("CALL", .call), ("CHAR", .char), ("CMPEQ", .op .cmpeq), ("CMPGE", .op .cmpge), ("CMPGT", .op .cmpgt),
    ("CMPLE", .op .cmple), ("CMPLT", .op .cmplt), ("CMPNE", .op .cmpne), ("CRJOIN", .op .crjoin), ("CRTDB", .op .crtdb),
    ("CRTTBL", .op .crttbl), ("CRTUSR", .op .crtusr), ("DATA", .data), ("DELETE", .op .delete), ("DESCRIBE", .op .describe),
    ("DIV", .op .div), ("DROPCLMN", .op .dropclmn), ("DROPDB", .op .dropdb), ("DROPFGNKEY", .op .dropfgnkey),
    ("DROPNDX", .op .dropndx), ("DROPTBL", .op .droptbl), ("DROPUSR", .op .dropusr), ("FLOAT", .float), ("GRANT", .op .grant),
    ("INJOIN", .op .injoin), ("INSERT", .op .insert), ("INT", .int), ("LOADDATA", .op .loaddata), ("LTJOIN", .op .ltjoin),
    ("MKASSIGN", .op .mkassign), ("MKASTEXPR", .op .mkastexpr), ("MKCLMNDEF", .op .mkclmndef), ("MKCLMNEXPR", .op .mkclmnexpr),
    ("MKEXPR", .op .mkexpr), ("MKEXPRHDR", .op .mkexprhdr), ("MKEXPRLST", .op .mkexprlst), ("MKFGNKEY", .op .mkfgnkey),
    ("MKPRIKEY", .op .mkprikey), ("MKUNIKEY", .op .mkunikey), ("MKUSR", .op .mkusr), ("MKWRKSCH", .op .mkwrksch), ("MUL", .op .mul),
    ("NEGATE", .op .negate), ("NOP", .nop), ("NOT", .op .not), ("ON", .op .on), ("OPNTBL", .op .opntbl), ("OR", .op .or),
    ("ORDERBY", .op .orderby), ("PRIMARY", .primary), ("PUSH", .push), ("PUSHO", .pusho), ("RET", .ret), ("REVOKE", .op .revoke),
    ("RTJOIN", .op .rtjoin), ("SELECT", .op .select), ("SETOUTF", .op .setoutf), ("SHOWDBS", .op .showdbs),
    ("SHOWTBLS", .op .showtbls), ("SLCKTBL", .op .slcktbl), ("SUB", .op .sub), ("TEXT", .text), ("ULCKTBL", .op .ulcktbl),
    ("UPDATE", .op .update), ("USE", .op .use), ("USING", .op .using), ("VARCHAR", .varchar), ("WHERE", .op .where)]

/-- `comp_lexer::get_symbol_type`: the table is sorted, the binary search finds what there is. -/
def getSymbolType (text : Text) : Option Ty := (symbol.find? fun s => s.1.toList = upper text).map Prod.snd

/-! ### The lexer -/

/-- `comp_lexer::name` -/
def name (input : Text) : Token × Text :=
  let (text, rest) := takeChars isWord input
  (⟨(getSymbolType text).getD .varchar, text⟩, rest)

/-- `comp_lexer::number`: a minus sign is no part of it. -/
def number (input : Text) : Token × Text :=
  let (value, rest) := takeChars Char.isDigit input
  if ch rest = '.' then
    let (decimals, rest) := takeChars Char.isDigit (consumeChar rest)
    (⟨.float, value ++ '.' :: decimals⟩, rest)
  else (⟨.int, value⟩, rest)

/-- The characters before a quotation mark that has no backslash before it. The backslashes
are kept. -/
def quoted : Text → Text × Text
  | [] => ([], [])
  | [c] => if c = EOI ∨ c = '"' then ([], [c]) else if c = '\\' then ([c, EOI], []) else ([c], [])
  | c :: c' :: rest =>
      if c = EOI ∨ c = '"' then ([], c :: c' :: rest)
      else if c = '\\' then
        let (text, rest) := quoted rest
        (c :: c' :: text, rest)
      else
        let (text, rest) := quoted (c' :: rest)
        (c :: text, rest)

/-- `comp_lexer::varchar` -/
def varchar (input : Text) : Token × Text :=
  let (text, rest) := quoted (consumeChar input)
  (⟨.varchar, text⟩, consumeChar rest)

/-- The tokens of one character. -/
def single (c : Char) : Option Ty :=
  match c with
  | '#' => some .hashtag
  | '$' => some .dollar
  | '%' => some .percent
  | '\'' => some .quotmark
  | '(' => some .lParen
  | ')' => some .rParen
  | '*' => some .asterisk
  | '+' => some .plus
  | ',' => some .comma
  | _ => none

/-- The token that starts at a character that is not white space. -/
def oneToken (input : Text) : Option (Token × Text) :=
  let c := ch input
  if c = EOI then some (⟨.eoi, "<EOI>".toList⟩, input)
  else if c = '"' ∨ c = '\\' then some (varchar input)
  else
    match single c with
    | some type => some (⟨type, [c]⟩, consumeChar input)
    | none =>
        if c = '.' then
          if (ch (consumeChar input)).isDigit then some (number input) else some (⟨.dot, ['.']⟩, consumeChar input)
        else if c.isAlpha ∨ c = '_' then some (name input)
        else if c.isDigit ∨ c = '-' then some (number input)
        else none

/-- `comp_lexer::next_token`: nothing if it throws. White space ends before a character that
is none, so it is skipped at most once. -/
def nextToken (input : Text) : Option (Token × Text) :=
  if ch input = ' ' ∨ ch input = '\t' ∨ ch input = '\n' then oneToken (takeChars isSpace input).2 else oneToken input

/-! ### The parser -/

/-- What the assembler throws. -/
inductive Err where
  /-- `ERRNO_TOKEN_ERROR` -/
  | token
  /-- `std::stoi` -/
  | stoi
  /-- `ERRNO_BUF_REMAINING_ERROR` -/
  | remaining
  /-- There is no such record: the source reads outside of its vector. -/
  | range
  /-- Out of fuel, which the source does not know. -/
  | fuel
deriving DecidableEq, Repr

/-- The state of the assembler. -/
structure CState where
  /-- `m_lexer`, the characters from `m_ch` on. -/
  input : Text
  /-- The token of `m_lookahead`, which holds one. -/
  lookahead : Token
  /-- `m_code`, up to its index. -/
  code : List ℕ
  /-- `m_data`, up to its index. -/
  data : List ℕ
deriving DecidableEq, Repr

/-- Steps of the assembler. -/
abbrev C := EStateM Err CState

/-- `CODE_CAPACITY` and `DATA_CAPACITY` -/
def capacity : ℕ := 8192

/-- `static_cast<int8_t>`, as a byte. -/
def byte (z : ℤ) : ℕ := (z % 256).toNat

/-- The bytes of an `int16_t`. -/
def int16Bytes (z : ℤ) : List ℕ := [byte z, byte (z / 256)]

/-- The bytes of an `int32_t`. -/
def int32Bytes (z : ℤ) : List ℕ := [byte z, byte (z / 256), byte (z / 65536), byte (z / 16777216)]

/-- `m_data.put` -/
def putData (bytes : List ℕ) : C Unit := do
  let s ← get
  if s.data.length + bytes.length > capacity then throw .remaining
  set { s with data := s.data ++ bytes }

/-- `m_code.put` -/
def putCode (bytes : List ℕ) : C Unit := do
  let s ← get
  if s.code.length + bytes.length > capacity then throw .remaining
  set { s with code := s.code ++ bytes }

/-- `comp_parser::get_lookahead_token (0)` -/
def getLookaheadToken : C Token := do
  let s ← get
  pure s.lookahead

/-- `comp_parser::consume` -/
def consume : C Unit := do
  let s ← get
  match nextToken s.input with
  | some (tok, input) => set { s with input := input, lookahead := tok }
  | none => throw .token

/-- `comp_parser::match` -/
def matchType (type : Ty) : C Unit := do
  let tok ← getLookaheadToken
  if tok.type ≠ type then throw .token
  consume

/-- `std::stoi` of a text. -/
def readInt (text : Text) : C ℤ :=
  match stoi text with
  | some z => pure z
  | none => throw .stoi

/-- `comp_parser::data`: the offsets of the records, behind those that are given. -/
def data : ℕ → List ℕ → C (List ℕ)
  | 0, _ => throw .fuel
  | fuel + 1, offset => do
    let tok ← getLookaheadToken
    if tok.type = .percent then return offset
    let s ← get
    let type ← readInt tok.text
    putData [byte type]
    consume
    let tok ← getLookaheadToken
    putData (int16Bytes tok.text.length)
    putData (tok.text.map Char.toNat)
    consume
    data fuel (offset ++ [s.data.length])

/-- `comp_parser::data_segment` -/
def dataSegment (fuel : ℕ) : C (List ℕ) := do
  matchType .dot
  matchType .data
  let offset ← data fuel []
  matchType .percent
  matchType .percent
  pure offset

/-- The opcode of a mnemonic, if `comp_parser::call` knows it. -/
def opcode : Op → Option ℕ
  | .add => some 1 | .addclmn => some 2 | .addfgnkey => some 3 | .addndx => some 4 | .altdb => some 5 | .altusr => some 6
  | .and => some 7 | .cmpeq => some 9 | .cmpge => some 10 | .cmpgt => some 11 | .cmple => some 12 | .cmplt => some 13
  | .cmpne => some 14 | .crjoin => some 15 | .crtdb => some 16 | .crttbl => some 17 | .crtusr => some 18 | .delete => some 19
  | .describe => some 20 | .div => some 21 | .dropclmn => some 22 | .dropdb => some 23 | .dropfgnkey => some 24
  | .dropndx => some 25 | .droptbl => some 26 | .dropusr => some 27 | .grant => some 28 | .injoin => some 29 | .insert => some 30
  | .loaddata => some 31 | .ltjoin => some 32 | .mkassign => some 33 | .mkastexpr => some 34 | .mkclmndef => some 35
  | .mkclmnexpr => some 36 | .mkexpr => some 37 | .mkexprhdr => some 38 | .mkexprlst => some 39 | .mkfgnkey => some 40
  | .mkprikey => some 41 | .mkunikey => some 42 | .mkusr => some 43 | .mkwrksch => some 44 | .mul => some 45 | .negate => some 46
  | .not => some 47 | .on => some 48 | .opntbl => some 49 | .or => some 50 | .orderby => some 51 | .revoke => some 55
  | .rtjoin => some 56 | .select => some 57 | .setoutf => some 58 | .showdbs => some 59 | .showtbls => some 60
  | .slcktbl => some 61 | .sub => some 62 | .ulcktbl => some 63 | .update => some 64 | .use => some 65 | .using => some 66
  | .where => some 67
  | .addunindx | .alt => none

/-- `OP_CALL` -/
def OP_CALL : ℕ := 8

/-- `OP_PUSH` -/
def OP_PUSH : ℕ := 52

/-- `OP_PUSHO` -/
def OP_PUSHO : ℕ := 53

/-- `OP_RET` -/
def OP_RET : ℕ := 54

/-- `comp_parser::call` -/
def call : C Unit := do
  putCode [OP_CALL]
  let tok ← getLookaheadToken
  match tok.type with
  | .op op =>
      match opcode op with
      | some code => do
        consume
        putCode [code]
      | none => throw .token
  | _ => throw .token

/-- `comp_parser::push` -/
def push : C Unit := do
  putCode [OP_PUSH]
  let tok ← getLookaheadToken
  let value ← readInt tok.text
  matchType .int
  putCode (int32Bytes value)

/-- `comp_parser::pusho` -/
def pusho (offset : List ℕ) : C Unit := do
  putCode [OP_PUSHO]
  let tok ← getLookaheadToken
  let index ← readInt tok.text
  matchType .int
  match index with
  | .ofNat index =>
      match offset[index]? with
      | some o => putCode (int32Bytes o)
      | none => throw .range
  | .negSucc _ => throw .range

/-- `comp_parser::text` -/
def text (offset : List ℕ) : ℕ → C Unit
  | 0 => throw .fuel
  | fuel + 1 => do
    let tok ← getLookaheadToken
    match tok.type with
    | .call => do
      consume
      call
      text offset fuel
    | .nop => do
      consume
      text offset fuel
    | .push => do
      consume
      push
      text offset fuel
    | .pusho => do
      consume
      pusho offset
      text offset fuel
    | .ret => do
      consume
      putCode [OP_RET]
    | _ => throw .token

/-- `comp_parser::text_segment` -/
def textSegment (offset : List ℕ) (fuel : ℕ) : C Unit := do
  matchType .dot
  matchType .text
  text offset fuel
  matchType .percent
  matchType .percent

/-- `comp_parser::parse` -/
def parse (fuel : ℕ) : C (List ℕ) := do
  let offset ← dataSegment fuel
  textSegment offset fuel
  pure offset

/-- `comp_lexer::init` and `comp_parser::init`: nothing if it throws. -/
def start (input : Text) : Option CState :=
  (nextToken input).map fun (tok, input) => { input := input, lookahead := tok, code := [], data := [] }

/-- `vm::get_varchar`, of a record at this offset of the data segment, and the type of the record. -/
def getRecord (bytes : List ℕ) (offset : ℕ) : Option (ℕ × Text) :=
  match bytes.drop offset with
  | type :: lo :: hi :: rest =>
      let size := lo + 256 * hi
      if size ≤ rest.length then some (type, (rest.take size).map Char.ofNat) else none
  | _ => none

end RedB.Comp
