import BlockScript.Parser.Expression

/-!
# Parsing statements

A declaration is a function, a variable or any other statement. A declaration that breaks off is
left out of the program, and parsing resumes at the next probable statement.

As with expressions, the parsers for nested statements and declarations are arguments, and
`statement` and `declaration` tie the knot under a bound on the depth.

## Main definitions

* `Parser.forLoop` — the block that a `for` loop abbreviates
* `Parser.statement`, `Parser.declaration` — any statement, any declaration
* `Parser.program` — all declarations up to the end of input
-/

namespace BlockScript

namespace Parser

/-! ### Sequences of declarations -/

/-- At most `steps` declarations, up to a state that is `closed`. -/
def declarations (declaration : Parser (Option Stmt)) (closed : State → Bool) :
    (steps : Nat) → Parser (List Stmt)
  | 0, s => .ok [] s
  | steps + 1, s =>
    if closed s then .ok [] s
    else
      (do
        let kept ← declaration
        let others ← declarations declaration closed steps
        return kept.toList ++ others : Parser (List Stmt)) s

/-- The declarations of a block and its closing brace, after the opening one. -/
def block (steps : Nat) (declaration : Parser (Option Stmt)) : Parser (List Stmt) := do
  let body ← declarations declaration
    (fun s => s.rest.isEmpty || s.nextIs (.symbol .rightBrace)) steps
  let _ ← expect (.symbol .rightBrace) "'\x7d' after block"
  return body

/-! ### Declarations -/

/-- A function declaration after its keyword, which starts at `start`. -/
def funcDeclaration (steps : Nat) (declaration : Parser (Option Stmt)) (start : Nat) :
    Parser Stmt := do
  let name ← expect .identifier "function name"
  let _ ← expect (.symbol .leftParen) "'(' after function name"
  let params ← itemList steps .tooManyParameters (expect .identifier "parameter name")
  let _ ← expect (.symbol .rightParen) "')' after parameters"
  let _ ← expect (.symbol .leftBrace) "'\x7b' before function body"
  let body ← insideFunction (block steps declaration)
  return .func (← spanFrom start) name.lexeme (params.map Token.lexeme) body

/-- The value that a variable starts with, after an equals sign. -/
def initialValue (expr : Parser Expr) : Parser (Option Expr) := do
  match ← acceptKind? (.symbol .equal) with
  | some _ => some <$> expr
  | none => return none

/-- A variable declaration after its keyword, which starts at `start`. -/
def varDeclaration (expr : Parser Expr) (start : Nat) : Parser Stmt := do
  let name ← expect .identifier "variable name"
  let value ← initialValue expr
  let _ ← expect (.symbol .semicolon) "';' after variable declaration"
  return .var (← spanFrom start) name.lexeme value

/-! ### Statements -/

/-- An expression and a semicolon. -/
def exprStatement (expr : Parser Expr) : Parser Stmt := do
  let value ← expr
  let _ ← expect (.symbol .semicolon) "';' after expression"
  return .expr (← spanFrom value.span.start) value

/-- The statement that a `for` loop abbreviates: a scope that holds the initial statement and a
`while` loop whose body ends with the step. The body has a scope of its own, so that nothing it
declares is seen by the condition or the step. -/
def forLoop (span : Span) (init : Option Stmt) (cond : Expr) (step : Option Expr) (body : Stmt) :
    Stmt :=
  let steps := step.map fun e => Stmt.expr e.span e
  let loop := Stmt.whileDo span cond (.block span (body :: steps.toList))
  .block span (init.toList ++ [loop])

/-- The statement that runs before a `for` loop, with the semicolon after it. -/
def forInitial (expr : Parser Expr) : Parser (Option Stmt) := do
  match ← acceptKind? (.symbol .semicolon) with
  | some _ => return none
  | none =>
    match ← acceptKind? (.keyword .varWord) with
    | some token => some <$> varDeclaration expr token.span.start
    | none => some <$> exprStatement expr

/-- The condition of a `for` loop. A missing one is always true. -/
def forCondition (expr : Parser Expr) : Parser Expr := do
  if ← nextIs (.symbol .semicolon) then return .literal (← here) (.bool true)
  expr

/-- A `for` loop after its keyword, which starts at `start`. -/
def forStatement (expr : Parser Expr) (statement : Parser Stmt) (start : Nat) : Parser Stmt := do
  let _ ← expect (.symbol .leftParen) "'(' after 'for'"
  let init ← forInitial expr
  let cond ← forCondition expr
  let _ ← expect (.symbol .semicolon) "';' after loop condition"
  let step ← unlessNext (.symbol .rightParen) expr
  let _ ← expect (.symbol .rightParen) "')' after for clauses"
  let body ← statement
  return forLoop (← spanFrom start) init cond step body

/-- An `if` statement after its keyword, which starts at `start`. -/
def ifStatement (expr : Parser Expr) (statement : Parser Stmt) (start : Nat) : Parser Stmt := do
  let _ ← expect (.symbol .leftParen) "'(' after 'if'"
  let cond ← expr
  let _ ← expect (.symbol .rightParen) "')' after if condition"
  let yes ← statement
  match ← acceptKind? (.keyword .elseWord) with
  | some _ =>
    let no ← statement
    return .ifElse (← spanFrom start) cond yes no
  | none => return .ifThen (← spanFrom start) cond yes

/-- A `print` statement after its keyword, which starts at `start`. -/
def printStatement (expr : Parser Expr) (start : Nat) : Parser Stmt := do
  let value ← expr
  let _ ← expect (.symbol .semicolon) "';' after value"
  return .print (← spanFrom start) value

/-- Reports a `return` that no function encloses. -/
def checkReturn (keyword : Span) : Parser Unit := fun s =>
  if s.depth = 0 then report .returnOutsideFunction keyword s else .ok () s

/-- A `return` statement after its keyword. Outside of a function it is reported. -/
def returnStatement (expr : Parser Expr) (keyword : Span) : Parser Stmt := do
  checkReturn keyword
  let value ← unlessNext (.symbol .semicolon) expr
  let _ ← expect (.symbol .semicolon) "';' after return value"
  return .ret (← spanFrom keyword.start) value

/-- A `while` loop after its keyword, which starts at `start`. -/
def whileStatement (expr : Parser Expr) (statement : Parser Stmt) (start : Nat) :
    Parser Stmt := do
  let _ ← expect (.symbol .leftParen) "'(' after 'while'"
  let cond ← expr
  let _ ← expect (.symbol .rightParen) "')' after condition"
  let body ← statement
  return .whileDo (← spanFrom start) cond body

/-- A block after its opening brace, which starts at `start`. -/
def blockStatement (steps : Nat) (declaration : Parser (Option Stmt)) (start : Nat) :
    Parser Stmt := do
  let body ← block steps declaration
  return .block (← spanFrom start) body

/-- A statement, given the parsers for what it contains. -/
def statementOf (steps : Nat) (expr : Parser Expr) (statement : Parser Stmt)
    (declaration : Parser (Option Stmt)) : Parser Stmt := fun s =>
  match s.rest with
  | [] => exprStatement expr s
  | token :: _ =>
    match token.kind with
    | .keyword .forWord => forStatement expr statement token.span.start s.advance
    | .keyword .ifWord => ifStatement expr statement token.span.start s.advance
    | .keyword .printWord => printStatement expr token.span.start s.advance
    | .keyword .returnWord => returnStatement expr token.span s.advance
    | .keyword .whileWord => whileStatement expr statement token.span.start s.advance
    | .symbol .leftBrace => blockStatement steps declaration token.span.start s.advance
    | _ => exprStatement expr s

/-- A declaration, given the parsers for what it contains. -/
def declarationOf (steps : Nat) (expr : Parser Expr) (statement : Parser Stmt)
    (declaration : Parser (Option Stmt)) : Parser (Option Stmt) :=
  recover fun s =>
    match s.rest with
    | [] => statementOf steps expr statement declaration s
    | token :: _ =>
      match token.kind with
      | .keyword .funcWord => funcDeclaration steps declaration token.span.start s.advance
      | .keyword .varWord => varDeclaration expr token.span.start s.advance
      | _ => statementOf steps expr statement declaration s

mutual

/-- Any statement, read with nesting and sequences bounded by the number. -/
def statement : Nat → Parser Stmt
  | 0, s => failHere .expectedExpression s
  | n + 1, s => statementOf (n + 1) (expression (n + 1)) (statement n) (declaration n) s

/-- Any declaration, read with nesting and sequences bounded by the number. -/
def declaration : Nat → Parser (Option Stmt)
  | 0, s => .ok none s
  | n + 1, s => declarationOf (n + 1) (expression (n + 1)) (statement n) (declaration n) s

end

/-- All declarations up to the end of input. -/
def program (steps : Nat) : Parser Program :=
  declarations (declaration steps) (fun s => s.rest.isEmpty) steps

end Parser

end BlockScript
