import BlockScript.Proofs.Locality

/-!
# A parser that points into its tokens

The parser takes tokens off the front of a list, and a number bounds how deep it goes. Neither can
go wrong: a list that is empty is a case like any other, and the bound makes every recursion end.
Here is the same parser without either. It keeps all tokens and a *cursor*, the number of those it
has read, and nothing bounds its loops and its recursion.

So it might go on forever, and then it has no result. It might also make a *misstep*, which ends the
run: look where there is no token, look beyond the first end of input, look back before the first
token, or leave a function when it is in none.

A function has the name of the one it corresponds to in the other parser. The two parsers share the
trees that they make and the tables of operators, but no step. Where functions are defined by each
other, a call names the place it is at: `(· |>.expression)` is `expression` at the cursor reached.

## Main definitions

* `Misstep` — what must not happen
* `Cursor`, `Cursor.Action` — the tokens with a place among them, and what can be done there
* `Cursor.expression`, `Cursor.declaration`, `Cursor.parse` — the parser
-/

namespace BlockScript

/-- What a parser with a cursor must not do. -/
inductive Misstep where
  /-- to look where there is no token -/
  | outOfRange
  /-- to look beyond the first end of input -/
  | pastEnd
  /-- to look back before the first token -/
  | nothingBefore
  /-- to leave a function outside of all functions -/
  | noFunction

/-- All tokens, with a place among them. -/
structure Cursor where
  tokens : List Token
  /-- the number of tokens read -/
  current : Nat
  /-- the number of functions around the next token -/
  depth : Nat
  /-- the faults found, in the order they were found -/
  faults : List Located

namespace Cursor

/-- What can happen to a cursor. It need not end, and it can end with a misstep. -/
abbrev Walk := StateT Cursor (ExceptT Misstep Option)

/-- What can happen to a cursor, to give a value or to break off with a fault. -/
abbrev Action := ExceptT Located Walk

variable {α : Type}

/-! ## Single tokens -/

/-- The next token. -/
def peek : Action Token := fun c =>
  if (c.tokens.take c.current).any (·.kind = .endOfInput) then some (.error .pastEnd)
  else
    match c.tokens[c.current]? with
    | some token => some (.ok (.ok token, c))
    | none => some (.error .outOfRange)

/-- The last token read. -/
def previous : Action Token := fun c =>
  match c.current with
  | 0 => some (.error .nothingBefore)
  | i + 1 =>
    match c.tokens[i]? with
    | some token => some (.ok (.ok token, c))
    | none => some (.error .outOfRange)

/-- Whether the next token is the end of input. -/
def atEnd : Action Bool := do
  return (← peek).kind = .endOfInput

/-- Reads a token, unless it is the end of input. -/
def advance : Action Unit := do
  if ← atEnd then return ()
  else modify fun c => { c with current := c.current + 1 }

/-- Whether the next token is of the given kind. -/
def check (kind : Token.Kind) : Action Bool := do
  if ← atEnd then return false
  else return (← peek).kind = kind

/-- Reads the next token if it is of the given kind, and tells whether it was. -/
def accepts (kind : Token.Kind) : Action Bool := do
  if ← check kind then
    advance
    return true
  else return false

/-- Reads the next token if `select` has a value for its kind. -/
def accept? (select : Token.Kind → Option α) : Action (Option α) := do
  if ← atEnd then return none
  else
    match select (← peek).kind with
    | some a =>
      advance
      return some a
    | none => return none

/-- Breaks off with a fault at the next token. -/
def failHere (fault : Fault) : Action α := do
  throw ⟨fault, (← peek).span⟩

/-- Reads a token of the given kind, or breaks off. -/
def consume (kind : Token.Kind) (what : String) : Action Token := do
  if ← check kind then
    advance
    previous
  else failHere (.expected what)

/-- Records a fault. -/
def record (fault : Located) : Action Unit :=
  modify fun c => { c with faults := c.faults ++ [fault] }

/-- The span from an offset to the end of the last token read. -/
def spanFrom (start : Nat) : Action Span := do
  return ⟨start, (← previous).span.stop⟩

/-- Skips tokens up to the next probable statement: past a semicolon, or before a keyword that
starts a statement. -/
def skip : Action Unit := do
  if ← atEnd then return ()
  else if (← previous).kind = .symbol .semicolon || (← peek).kind.startsStatement then return ()
  else
    advance
    (· |>.skip)
partial_fixpoint

/-- Goes to where parsing resumes after a declaration broke off. -/
def synchronize : Action Unit := do
  advance
  skip

/-- The next tokens are in one more function. -/
def enterFunction : Walk Unit := modify fun c => { c with depth := c.depth + 1 }

/-- The function around the next tokens is over. -/
def leaveFunction : Walk Unit := fun c =>
  match c.depth with
  | 0 => some (.error .noFunction)
  | depth + 1 => some (.ok ((), { c with depth }))

/-- Reports the next item if it is one more than there may be after `count` others. -/
def checkCount (tooMany : Nat → Fault) (count : Nat) : Action Unit := do
  if Parser.maxItems ≤ count then record ⟨tooMany Parser.maxItems, (← peek).span⟩
  else return ()

/-! ## Expressions -/

mutual

/-- Any expression. -/
def expression : Action Expr := do
  let target ← (· |>.binary Parser.levels)
  if ← accepts (.symbol .equal) then
    let equals ← previous
    let value ← (· |>.expression)
    match target with
    | .ident span name => return .assign (span.through value.span) name value
    | other =>
      record ⟨.invalidTarget, equals.span⟩
      return other
  else return target
partial_fixpoint

/-- Operators of the given levels between operands. -/
def binary (levels : List Parser.Level) : Action Expr :=
  match levels with
  | [] => (· |>.unary)
  | level :: tighter => do
    let first ← (· |>.binary tighter)
    (· |>.chain level tighter first)
partial_fixpoint

/-- Operators of one level, each with an operand, after `left`. -/
def chain (level : Parser.Level) (tighter : List Parser.Level) (left : Expr) : Action Expr := do
  match ← accept? level with
  | none => return left
  | some joint =>
    let right ← (· |>.binary tighter)
    (· |>.chain level tighter (joint.join left right))
partial_fixpoint

/-- Operators on one operand, before a call. -/
def unary : Action Expr := do
  match ← accept? Parser.unaryOp? with
  | none => (· |>.call)
  | some op =>
    let operator ← previous
    let inner ← (· |>.unary)
    return .unary (operator.span.through inner.span) op inner
partial_fixpoint

/-- A unit with any number of argument lists after it. -/
def call : Action Expr := do
  let callee ← (· |>.primary)
  (· |>.callsOf callee)
partial_fixpoint

/-- Any number of argument lists after `callee`. -/
def callsOf (callee : Expr) : Action Expr := do
  if ← accepts (.symbol .leftParen) then
    let next ← (· |>.finishCall callee)
    (· |>.callsOf next)
  else return callee
partial_fixpoint

/-- The arguments of a call of `callee`, after the opening parenthesis. -/
def finishCall (callee : Expr) : Action Expr := do
  let args ← (· |>.argumentList)
  let closing ← consume (.symbol .rightParen) "')' after arguments"
  return .call (callee.span.through closing.span) closing.span callee args
partial_fixpoint

/-- Arguments with commas between them, up to a closing parenthesis that is not read yet. -/
def argumentList : Action (List Expr) := do
  if ← check (.symbol .rightParen) then return []
  else (· |>.arguments 0)
partial_fixpoint

/-- Arguments with commas between them, of which `count` were read before. -/
def arguments (count : Nat) : Action (List Expr) := do
  checkCount .tooManyArguments count
  let first ← (· |>.expression)
  if ← accepts (.symbol .comma) then
    let others ← (· |>.arguments (count + 1))
    return first :: others
  else return [first]
partial_fixpoint

/-- An expression that is a unit: a constant, a variable or an expression in parentheses. -/
def primary : Action Expr := do
  let token ← peek
  match Parser.unit? token with
  | some tree =>
    advance
    return tree
  | none =>
    if token.kind = .symbol .leftParen then
      advance
      let inner ← (· |>.expression)
      let closing ← consume (.symbol .rightParen) "')' after expression"
      return .group (token.span.through closing.span) inner
    else throw ⟨.expectedExpression, token.span⟩
partial_fixpoint

end

/-! ## Statements -/

/-- An expression and a semicolon. -/
def exprStatement : Action Stmt := do
  let value ← expression
  let _ ← consume (.symbol .semicolon) "';' after expression"
  return .expr (← spanFrom value.span.start) value

/-- The value that a variable starts with, after an equals sign. -/
def initialValue : Action (Option Expr) := do
  if ← accepts (.symbol .equal) then
    let value ← expression
    return some value
  else return none

/-- A variable declaration after its keyword. -/
def varDeclaration : Action Stmt := do
  let keyword ← previous
  let name ← consume .identifier "variable name"
  let value ← initialValue
  let _ ← consume (.symbol .semicolon) "';' after variable declaration"
  return .var (← spanFrom keyword.span.start) name.lexeme value

/-- The names of parameters with commas between them, of which `count` were read before. -/
def parameters (count : Nat) : Action (List Token) := do
  checkCount .tooManyParameters count
  let first ← consume .identifier "parameter name"
  if ← accepts (.symbol .comma) then
    let others ← (· |>.parameters (count + 1))
    return first :: others
  else return [first]
partial_fixpoint

/-- Parameters up to a closing parenthesis that is not read yet. -/
def parameterList : Action (List Token) := do
  if ← check (.symbol .rightParen) then return []
  else parameters 0

/-- The statement that runs before a `for` loop, with the semicolon after it. -/
def forInitial : Action (Option Stmt) := do
  if ← accepts (.symbol .semicolon) then return none
  else if ← accepts (.keyword .varWord) then
    let init ← varDeclaration
    return some init
  else
    let init ← exprStatement
    return some init

/-- The condition of a `for` loop. A missing one is always true. -/
def forCondition : Action Expr := do
  if ← check (.symbol .semicolon) then return .literal (← peek).span (.bool true)
  else expression

/-- An expression, unless the next token is of the given kind. -/
def unlessNext (kind : Token.Kind) : Action (Option Expr) := do
  if ← check kind then return none
  else
    let value ← expression
    return some value

/-- A `print` statement after its keyword. -/
def printStatement : Action Stmt := do
  let keyword ← previous
  let value ← expression
  let _ ← consume (.symbol .semicolon) "';' after value"
  return .print (← spanFrom keyword.span.start) value

/-- Reports a `return` that no function encloses. -/
def checkReturn (keyword : Span) : Action Unit := do
  if (← get).depth = 0 then record ⟨.returnOutsideFunction, keyword⟩
  else return ()

/-- A `return` statement after its keyword. -/
def returnStatement : Action Stmt := do
  let keyword ← previous
  checkReturn keyword.span
  let value ← unlessNext (.symbol .semicolon)
  let _ ← consume (.symbol .semicolon) "';' after return value"
  return .ret (← spanFrom keyword.span.start) value

/-- Whether a sequence of declarations is over: at the end of input, and in a block also at a
closing brace. -/
def closed (inBlock : Bool) : Action Bool := do
  if ← atEnd then return true
  else if inBlock then check (.symbol .rightBrace)
  else return false

mutual

/-- Any statement. -/
def statement : Action Stmt := do
  if ← accepts (.keyword .forWord) then (· |>.forStatement)
  else if ← accepts (.keyword .ifWord) then (· |>.ifStatement)
  else if ← accepts (.keyword .printWord) then printStatement
  else if ← accepts (.keyword .returnWord) then returnStatement
  else if ← accepts (.keyword .whileWord) then (· |>.whileStatement)
  else if ← accepts (.symbol .leftBrace) then (· |>.blockStatement)
  else exprStatement
partial_fixpoint

/-- A `for` loop after its keyword. -/
def forStatement : Action Stmt := do
  let keyword ← previous
  let _ ← consume (.symbol .leftParen) "'(' after 'for'"
  let init ← forInitial
  let cond ← forCondition
  let _ ← consume (.symbol .semicolon) "';' after loop condition"
  let step ← unlessNext (.symbol .rightParen)
  let _ ← consume (.symbol .rightParen) "')' after for clauses"
  let body ← (· |>.statement)
  return Parser.forLoop (← spanFrom keyword.span.start) init cond step body
partial_fixpoint

/-- An `if` statement after its keyword. -/
def ifStatement : Action Stmt := do
  let keyword ← previous
  let _ ← consume (.symbol .leftParen) "'(' after 'if'"
  let cond ← expression
  let _ ← consume (.symbol .rightParen) "')' after if condition"
  let yes ← (· |>.statement)
  if ← accepts (.keyword .elseWord) then
    let no ← (· |>.statement)
    return .ifElse (← spanFrom keyword.span.start) cond yes no
  else return .ifThen (← spanFrom keyword.span.start) cond yes
partial_fixpoint

/-- A `while` loop after its keyword. -/
def whileStatement : Action Stmt := do
  let keyword ← previous
  let _ ← consume (.symbol .leftParen) "'(' after 'while'"
  let cond ← expression
  let _ ← consume (.symbol .rightParen) "')' after condition"
  let body ← (· |>.statement)
  return .whileDo (← spanFrom keyword.span.start) cond body
partial_fixpoint

/-- A block after its opening brace. -/
def blockStatement : Action Stmt := do
  let brace ← previous
  let body ← (· |>.block)
  return .block (← spanFrom brace.span.start) body
partial_fixpoint

/-- The declarations of a block and its closing brace, after the opening one. -/
def block : Action (List Stmt) := do
  let body ← (· |>.declarations true)
  let _ ← consume (.symbol .rightBrace) "'\x7d' after block"
  return body
partial_fixpoint

/-- Declarations up to where they are over. -/
def declarations (inBlock : Bool) : Action (List Stmt) := do
  if ← closed inBlock then return []
  else
    let kept ← (· |>.declaration)
    let others ← (· |>.declarations inBlock)
    return kept.toList ++ others
partial_fixpoint

/-- Any declaration. One that breaks off is left out, and its fault is recorded. -/
def declaration : Action (Option Stmt) :=
  (do
    match ← declarationBody.run with
    | .ok tree => return .ok (some tree)
    | .error fault =>
      let _ ← ExceptT.run (record fault)
      let _ ← ExceptT.run synchronize
      return .ok none : Walk (Except Located (Option Stmt)))
partial_fixpoint

/-- A declaration that can still break off. -/
def declarationBody : Action Stmt := do
  if ← accepts (.keyword .funcWord) then (· |>.funcDeclaration)
  else if ← accepts (.keyword .varWord) then varDeclaration
  else (· |>.statement)
partial_fixpoint

/-- A function declaration after its keyword. -/
def funcDeclaration : Action Stmt := do
  let keyword ← previous
  let name ← consume .identifier "function name"
  let _ ← consume (.symbol .leftParen) "'(' after function name"
  let params ← parameterList
  let _ ← consume (.symbol .rightParen) "')' after parameters"
  let _ ← consume (.symbol .leftBrace) "'\x7b' before function body"
  let body ← (· |>.functionBody)
  return .func (← spanFrom keyword.span.start) name.lexeme (params.map Token.lexeme) body
partial_fixpoint

/-- The block of a function. The function is over also if the block breaks off. -/
def functionBody : Action (List Stmt) :=
  (do
    enterFunction
    let body ← block.run
    leaveFunction
    return body : Walk (Except Located (List Stmt)))
partial_fixpoint

end

/-- The cursor before the first token. An end of input is added unless the last token is one. -/
def start (tokens : List Token) : Cursor :=
  { tokens :=
      if tokens.getLast?.map Token.kind = some .endOfInput then tokens
      else tokens ++ [.endOfInput ((tokens.getLast?.map (·.span.stop)).getD 0)
        ((tokens.getLast?.map Token.line).getD 1)]
    current := 0
    depth := 0
    faults := [] }

/-- Parses a list of tokens. There is no result if this goes on forever; otherwise it is a misstep,
or what was read with the cursor that it ends at. -/
def parse (tokens : List Token) : Option (Except Misstep (Except Located Program × Cursor)) :=
  declarations false (start tokens)

end Cursor

end BlockScript
