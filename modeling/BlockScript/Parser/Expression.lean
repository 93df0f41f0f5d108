import BlockScript.Parser.State
import BlockScript.Tree

/-!
# Parsing expressions

Binary operators have six levels of precedence, from `or` to `*`, and group to the left. Above
them stand the operators on one operand, then calls, then the expressions that are a unit.
Assignment is the loosest and groups to the right: its left side is read as any operand and must
turn out to be a variable.

Expressions nest, so the functions below take the parser for nested expressions as an argument,
and `expression` ties the knot. Its number bounds the depth, and the length of each sequence on
the way: the number of tokens left is always enough.

## Main definitions

* `Parser.levels`, `Parser.binary` — the levels of binary operators
* `Parser.expression` — any expression
-/

namespace BlockScript

namespace Parser

/-- The most arguments in a call and parameters of a function. -/
def maxItems : Nat := 255

/-! ### Sequences -/

/-- Reports the next item if it is one more than there may be after `count` others. -/
def checkCount (tooMany : Nat → Fault) (count : Nat) : Parser Unit :=
  if maxItems ≤ count then do report (tooMany maxItems) (← here) else pure ()

/-- At most `steps` items with commas between them, of which `count` were read before. Each item
beyond the limit is reported. -/
def commaSeparated {α : Type} (tooMany : Nat → Fault) (item : Parser α) :
    (steps : Nat) → (count : Nat) → Parser (List α)
  | 0, _ => pure []
  | steps + 1, count => do
    checkCount tooMany count
    let first ← item
    match ← acceptKind? (.symbol .comma) with
    | some _ => return first :: (← commaSeparated tooMany item steps (count + 1))
    | none => return [first]

/-- Items with commas between them up to a closing parenthesis that is not read yet. -/
def itemList {α : Type} (steps : Nat) (tooMany : Nat → Fault) (item : Parser α) :
    Parser (List α) := do
  if ← nextIs (.symbol .rightParen) then return []
  commaSeparated tooMany item steps 0

/-! ### Units and calls -/

/-- An expression in parentheses, after the opening one. -/
def grouping (nested : Parser Expr) (opening : Token) : Parser Expr := do
  let inner ← nested
  let closing ← expect (.symbol .rightParen) "')' after expression"
  return .group (opening.span.through closing.span) inner

/-- An expression that is a unit: a constant, a variable or an expression in parentheses. -/
def primary (nested : Parser Expr) : Parser Expr := fun s =>
  match s.rest with
  | [] => failHere .expectedExpression s
  | token :: _ =>
    match token.kind, token.literal with
    | .keyword .falseWord, _ => .ok (.literal token.span (.bool false)) s.advance
    | .keyword .trueWord, _ => .ok (.literal token.span (.bool true)) s.advance
    | .keyword .nilWord, _ => .ok (.literal token.span .nil) s.advance
    | .number, some (.number value) => .ok (.literal token.span (.number value)) s.advance
    | .number, some (.text value) => .ok (.literal token.span (.text value)) s.advance
    | .string, some (.number value) => .ok (.literal token.span (.number value)) s.advance
    | .string, some (.text value) => .ok (.literal token.span (.text value)) s.advance
    | .identifier, _ => .ok (.ident token.span token.lexeme) s.advance
    | .symbol .leftParen, _ => grouping nested token s.advance
    | _, _ => failHere .expectedExpression s

/-- The arguments of a call of `callee`, after the opening parenthesis. -/
def finishCall (steps : Nat) (nested : Parser Expr) (callee : Expr) : Parser Expr := do
  let args ← itemList steps .tooManyArguments nested
  let closing ← expect (.symbol .rightParen) "')' after arguments"
  return .call (callee.span.through closing.span) closing.span callee args

/-- At most `steps` argument lists after `callee`. -/
def callsOf (width : Nat) (nested : Parser Expr) : (steps : Nat) → Expr → Parser Expr
  | 0, callee => pure callee
  | steps + 1, callee => do
    match ← acceptKind? (.symbol .leftParen) with
    | none => return callee
    | some _ => callsOf width nested steps (← finishCall width nested callee)

/-- A unit with any number of argument lists after it. -/
def call (steps : Nat) (nested : Parser Expr) : Parser Expr := do
  callsOf steps nested steps (← primary nested)

/-! ### Operators -/

/-- The operators on one operand. -/
def unaryOp? : Token.Kind → Option UnaryOp
  | .symbol .bang => some .not
  | .symbol .minus => some .negate
  | _ => none

/-- At most `steps` operators on one operand before `operand`. -/
def unary (operand : Parser Expr) : (steps : Nat) → Parser Expr
  | 0 => operand
  | steps + 1 => do
    match ← accept? unaryOp? with
    | some (op, token) =>
      let inner ← unary operand steps
      return .unary (token.span.through inner.span) op inner
    | none => operand

/-- An operator between two operands. -/
inductive Joint where
  | binary (op : BinaryOp)
  | logical (op : LogicalOp)

/-- Two operands with an operator between them. -/
def Joint.join (joint : Joint) (left right : Expr) : Expr :=
  let span := left.span.through right.span
  match joint with
  | .binary op => .binary span op left right
  | .logical op => .logical span op left right

/-- One level of precedence: which tokens are its operators. -/
abbrev Level := Token.Kind → Option Joint

/-- The levels of binary operators, the loosest first. -/
def levels : List Level := [
  fun
    | .keyword .orWord => some (.logical .or)
    | _ => none,
  fun
    | .keyword .andWord => some (.logical .and)
    | _ => none,
  fun
    | .symbol .bangEqual => some (.binary .notEqual)
    | .symbol .equalEqual => some (.binary .equal)
    | _ => none,
  fun
    | .symbol .greater => some (.binary .greater)
    | .symbol .greaterEqual => some (.binary .greaterEqual)
    | .symbol .less => some (.binary .less)
    | .symbol .lessEqual => some (.binary .lessEqual)
    | _ => none,
  fun
    | .symbol .minus => some (.binary .subtract)
    | .symbol .plus => some (.binary .add)
    | _ => none,
  fun
    | .symbol .slash => some (.binary .divide)
    | .symbol .star => some (.binary .multiply)
    | _ => none]

/-- At most `steps` operators of one level, each with an operand, after `left`. -/
def chain (level : Level) (operand : Parser Expr) : (steps : Nat) → Expr → Parser Expr
  | 0, left => pure left
  | steps + 1, left => do
    match ← accept? level with
    | none => return left
    | some (joint, _) => chain level operand steps (joint.join left (← operand))

/-- Operators of the given levels between operands, each level grouped to the left. -/
def binary (steps : Nat) (operand : Parser Expr) : List Level → Parser Expr
  | [] => operand
  | level :: tighter => do
    chain level (binary steps operand tighter) steps (← binary steps operand tighter)

/-! ### Assignment -/

/-- An expression at the loosest level. An assignment to anything but a variable is reported and
leaves its left side standing. -/
def assignment (steps : Nat) (nested : Parser Expr) : Parser Expr := do
  let target ← binary steps (unary (call steps nested) steps) levels
  match ← acceptKind? (.symbol .equal) with
  | none => return target
  | some equals =>
    let value ← nested
    match target with
    | .ident span name => return .assign (span.through value.span) name value
    | other =>
      report .invalidTarget equals.span
      return other

/-- Any expression, read with nesting and sequences bounded by the number. -/
def expression : Nat → Parser Expr
  | 0, s => failHere .expectedExpression s
  | n + 1, s => assignment (n + 1) (expression n) s

end Parser

end BlockScript
