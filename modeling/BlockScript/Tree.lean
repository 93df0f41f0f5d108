import BlockScript.Span
import BlockScript.Numeral.Decimal

/-!
# Program trees

Expressions and statements as the parser builds them. Every node carries the span of its text
first; the rest of its fields say what it means. A `for` loop has no node of its own: it stands
as the block and the `while` loop that it abbreviates.

## Main definitions

* `Expr`, `Stmt`, `Program` — the trees
* `Node`, `Program.nodes` — the nodes of a program, each before its children
-/

namespace BlockScript

/-- Operators on one operand. -/
inductive UnaryOp where
  | negate
  | not
deriving DecidableEq, Repr

/-- Operators on two operands that evaluate both. -/
inductive BinaryOp where
  | add | subtract | multiply | divide
  | equal | notEqual
  | greater | greaterEqual | less | lessEqual
deriving DecidableEq, Repr

/-- Operators that evaluate the right operand only if the left one does not decide. -/
inductive LogicalOp where
  | and
  | or
deriving DecidableEq, Repr

/-- How an operator is written. -/
def UnaryOp.spelling : UnaryOp → String
  | .negate => "-"
  | .not => "!"

/-- How an operator is written. -/
def BinaryOp.spelling : BinaryOp → String
  | .add => "+"
  | .subtract => "-"
  | .multiply => "*"
  | .divide => "/"
  | .equal => "=="
  | .notEqual => "!="
  | .greater => ">"
  | .greaterEqual => ">="
  | .less => "<"
  | .lessEqual => "<="

/-- How an operator is written. -/
def LogicalOp.spelling : LogicalOp → String
  | .and => "and"
  | .or => "or"

/-- The value of a literal expression. -/
inductive Constant where
  | nil
  | bool (value : Bool)
  | number (value : Float)
  | text (value : String)

/-- The text of a constant, without quotes. -/
def Constant.display : Constant → String
  | .nil => "nil"
  | .bool value => if value then "true" else "false"
  | .number value => Numeral.text value
  | .text value => value

/-- Expressions. -/
inductive Expr where
  | literal (span : Span) (value : Constant)
  | ident (span : Span) (name : String)
  | assign (span : Span) (name : String) (value : Expr)
  | unary (span : Span) (op : UnaryOp) (operand : Expr)
  | binary (span : Span) (op : BinaryOp) (left right : Expr)
  | logical (span : Span) (op : LogicalOp) (left right : Expr)
  | group (span : Span) (inner : Expr)
  /-- A call. `paren` is the closing parenthesis, where faults of the call are shown. -/
  | call (span paren : Span) (callee : Expr) (args : List Expr)

/-- The text an expression was read from. -/
def Expr.span : Expr → Span
  | .literal span .. | .ident span .. | .assign span .. | .unary span .. | .binary span ..
  | .logical span .. | .group span .. | .call span .. => span

/-- Statements. -/
inductive Stmt where
  | block (span : Span) (body : List Stmt)
  | expr (span : Span) (value : Expr)
  | func (span : Span) (name : String) (params : List String) (body : List Stmt)
  | ifThen (span : Span) (cond : Expr) (yes : Stmt)
  | ifElse (span : Span) (cond : Expr) (yes no : Stmt)
  | print (span : Span) (value : Expr)
  | ret (span : Span) (value : Option Expr)
  | var (span : Span) (name : String) (value : Option Expr)
  | whileDo (span : Span) (cond : Expr) (body : Stmt)

/-- The text a statement was read from. -/
def Stmt.span : Stmt → Span
  | .block span .. | .expr span .. | .func span .. | .ifThen span .. | .ifElse span ..
  | .print span .. | .ret span .. | .var span .. | .whileDo span .. => span

/-- A program is a sequence of statements. -/
abbrev Program := List Stmt

/-! ### Nodes in order -/

/-- A node of a program. -/
inductive Node where
  | expr (e : Expr)
  | stmt (s : Stmt)

/-- The text a node was read from. -/
def Node.span : Node → Span
  | .expr e => e.span
  | .stmt s => s.span

mutual

/-- An expression and all expressions inside it, each before its parts. -/
def Expr.nodes : Expr → List Node
  | e@(.literal ..) | e@(.ident ..) => [.expr e]
  | e@(.assign _ _ value) => .expr e :: value.nodes
  | e@(.unary _ _ operand) => .expr e :: operand.nodes
  | e@(.binary _ _ left right) => .expr e :: (left.nodes ++ right.nodes)
  | e@(.logical _ _ left right) => .expr e :: (left.nodes ++ right.nodes)
  | e@(.group _ inner) => .expr e :: inner.nodes
  | e@(.call _ _ callee args) => .expr e :: (callee.nodes ++ Expr.listNodes args)

/-- The nodes of a sequence of expressions. -/
def Expr.listNodes : List Expr → List Node
  | [] => []
  | e :: es => e.nodes ++ Expr.listNodes es

end

mutual

/-- A statement and everything inside it, each node before its parts. -/
def Stmt.nodes : Stmt → List Node
  | s@(.block _ body) => .stmt s :: Stmt.listNodes body
  | s@(.expr _ value) => .stmt s :: value.nodes
  | s@(.func _ _ _ body) => .stmt s :: Stmt.listNodes body
  | s@(.ifThen _ cond yes) => .stmt s :: (cond.nodes ++ yes.nodes)
  | s@(.ifElse _ cond yes no) => .stmt s :: (cond.nodes ++ yes.nodes ++ no.nodes)
  | s@(.print _ value) => .stmt s :: value.nodes
  | s@(.ret _ value) => .stmt s :: Expr.listNodes value.toList
  | s@(.var _ _ value) => .stmt s :: Expr.listNodes value.toList
  | s@(.whileDo _ cond body) => .stmt s :: (cond.nodes ++ body.nodes)

/-- The nodes of a sequence of statements. -/
def Stmt.listNodes : List Stmt → List Node
  | [] => []
  | s :: ss => s.nodes ++ Stmt.listNodes ss

end

/-- All nodes of a program, each before its parts. -/
def Program.nodes (program : Program) : List Node := Stmt.listNodes program

end BlockScript
