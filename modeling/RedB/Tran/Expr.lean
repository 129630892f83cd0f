import RedB.Tran.Parser

/-!
# Expressions

Each level of an expression puts the call of an operator at the front of the code it has so
far and the code of the next operand at its back. A level differs from the next in its
operators alone: `AND`, then `OR`, then `=` and `!=`, then the other comparisons, then `+`
and `-`, then `*` and `/`.
-/

namespace RedB.Tran

/-- `parser::name` -/
def nameExpr : P (List Line) := do
  if ← speculateList [.name, .dot, .name, .dot, .asterisk] then
    let db ← pushData .name
    matchType .dot
    let tbl ← pushData .name
    matchType .dot
    matchType .asterisk
    pure [.call .mkastexpr, db, tbl]
  else if ← speculateList [.name, .dot, .asterisk] then
    let db ← pushEmpty
    let tbl ← pushData .name
    matchType .dot
    matchType .asterisk
    pure [.call .mkastexpr, db, tbl]
  else if ← speculateList [.name, .dot, .name, .dot, .name] then
    -- the name of the database is not read: the first match fails on it
    let db ← pushEmpty
    matchType .dot
    let tbl ← pushData .name
    matchType .dot
    let col ← pushData .name
    pure [.call .mkclmnexpr, db, tbl, col]
  else if ← speculateList [.name, .dot, .name] then
    let db ← pushEmpty
    let tbl ← pushData .name
    matchType .dot
    let col ← pushData .name
    pure [.call .mkclmnexpr, db, tbl, col]
  else
    let db ← pushEmpty
    let tbl ← pushEmpty
    let col ← pushData .name
    pure [.call .mkclmnexpr, db, tbl, col]

/-- The loop of a level: the code so far, and the code of the last operand if it has not
been put behind it yet. -/
def chainLoop (ops : Ty → Option Op) (operand : P (List Line)) : ℕ → List Line → List Line → P (List Line)
  | 0, _, _ => throw .fuel
  | fuel + 1, code, term => do
    match ops (← getLookaheadType 0) with
    | some op =>
        consume
        let next ← operand
        chainLoop ops operand fuel (.call op :: code ++ term ++ next) []
    | none => pure (code ++ term)

/-- A level of an expression, put behind some code. -/
def chain (ops : Ty → Option Op) (first operand : P (List Line)) (fuel : ℕ) (code : List Line) : P (List Line) := do
  let term ← first
  chainLoop ops operand fuel code term

/-- The operators of `parser::math_term`. -/
def mathTermOps : Ty → Option Op
  | .asterisk => some .mul
  | .backslash => some .div
  | _ => none

/-- The operators of `parser::math_expr`. -/
def mathExprOps : Ty → Option Op
  | .minus => some .sub
  | .plus => some .add
  | _ => none

/-- The operators of `parser::comparison_term`. -/
def comparisonTermOps : Ty → Option Op
  | .ge => some .cmpge
  | .gt => some .cmpgt
  | .le => some .cmple
  | .lt => some .cmplt
  | _ => none

/-- The operators of `parser::comparison_expr`. -/
def comparisonExprOps : Ty → Option Op
  | .eq => some .cmpeq
  | .ne => some .cmpne
  | _ => none

/-- The operators of `parser::logic_term`. -/
def logicTermOps : Ty → Option Op
  | .or => some .or
  | _ => none

/-- The operators of `parser::logic_expr`. -/
def logicExprOps : Ty → Option Op
  | .and => some .and
  | _ => none

/-- `parser::math_primary`; `expr` is `logic_expr`. -/
def mathPrimary (expr : P (List Line)) : ℕ → Bool → P (List Line)
  | 0, _ => throw .fuel
  | fuel + 1, useAsterisk => do
    loadLookahead 6
    match ← getLookaheadType 0 with
    | .asterisk =>
        if useAsterisk = false then throw .token
        consume
        if (← getLookaheadType 0) = .asterisk then throw .token
        let db ← pushEmpty
        let tbl ← pushEmpty
        pure [.call .mkastexpr, db, tbl]
    | .float => do
        let value ← pushData .float
        pure [.call .mkexpr, value]
    | .int => do
        let value ← pushData .int
        pure [.call .mkexpr, value]
    | .lParen => do
        consume
        let code ← expr
        matchType .rParen
        pure code
    | .minus => do
        consume
        let code ← mathPrimary expr fuel false
        pure (.call .negate :: code)
    | .name => nameExpr
    | .nullSym => do
        consume
        let value ← pushText "null".toList
        pure [.call .mkexpr, value]
    | .plus => do
        consume
        mathPrimary expr fuel false
    | .varchar => do
        let value ← pushData .varchar
        pure [.call .mkexpr, value]
    | _ => throw .token

/-- `parser::math_term` -/
def mathTerm (expr : P (List Line)) (fuel : ℕ) (useAsterisk : Bool) : P (List Line) :=
  chain mathTermOps (mathPrimary expr fuel useAsterisk) (mathPrimary expr fuel false) fuel []

/-- `parser::math_expr` -/
def mathExpr (expr : P (List Line)) (fuel : ℕ) (useAsterisk : Bool) : P (List Line) :=
  chain mathExprOps (mathTerm expr fuel useAsterisk) (mathTerm expr fuel false) fuel []

/-- `parser::comparison_term` -/
def comparisonTerm (expr : P (List Line)) (fuel : ℕ) (useAsterisk : Bool) : P (List Line) :=
  chain comparisonTermOps (mathExpr expr fuel useAsterisk) (mathExpr expr fuel false) fuel []

/-- `parser::comparison_expr` -/
def comparisonExpr (expr : P (List Line)) (fuel : ℕ) (useAsterisk : Bool) : P (List Line) :=
  chain comparisonExprOps (comparisonTerm expr fuel useAsterisk) (comparisonTerm expr fuel false) fuel []

/-- `parser::logic_term` -/
def logicTerm (expr : P (List Line)) (fuel : ℕ) (useAsterisk : Bool) : P (List Line) :=
  chain logicTermOps (comparisonExpr expr fuel useAsterisk) (comparisonExpr expr fuel false) fuel []

/-- `parser::logic_expr`, which is `parser::expr`. It does not clear the code it is given:
an `AND` goes to the front of all of it. -/
def logicExpr : ℕ → List Line → P (List Line)
  | 0, _ => throw .fuel
  | fuel + 1, code =>
    chain logicExprOps (logicTerm (logicExpr fuel []) fuel true) (logicTerm (logicExpr fuel []) fuel false) fuel code

end RedB.Tran
