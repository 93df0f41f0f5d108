import BlockScript.Tree

/-!
# Programs as nested lists

A program is shown with one line for each statement. Every node but a constant and a variable is
a list in parentheses: its operator or a word for its kind, then its parts. Spans are not shown.
-/

namespace BlockScript

/-- A list in parentheses. -/
def parenthesized (head : String) (parts : List String) : String :=
  "(" ++ " ".intercalate (head :: parts) ++ ")"

mutual

/-- An expression as nested lists. -/
def Expr.render : Expr → String
  | .literal _ value => value.display
  | .ident _ name => name
  | .assign _ name value => parenthesized "=" [name, value.render]
  | .unary _ op operand => parenthesized op.spelling [operand.render]
  | .binary _ op left right => parenthesized op.spelling [left.render, right.render]
  | .logical _ op left right => parenthesized op.spelling [left.render, right.render]
  | .group _ inner => parenthesized "group" [inner.render]
  | .call _ _ callee args => parenthesized "call" (callee.render :: Expr.renderAll args)

/-- The expressions of a sequence, one by one. -/
def Expr.renderAll : List Expr → List String
  | [] => []
  | e :: es => e.render :: Expr.renderAll es

end

mutual

/-- A statement as nested lists. -/
def Stmt.render : Stmt → String
  | .block _ body => parenthesized "block" (Stmt.renderAll body)
  | .expr _ value => parenthesized ";" [value.render]
  | .func _ name params body =>
    parenthesized "func" (name :: ("(" ++ " ".intercalate params ++ ")") :: Stmt.renderAll body)
  | .ifThen _ cond yes => parenthesized "if" [cond.render, yes.render]
  | .ifElse _ cond yes no => parenthesized "if" [cond.render, yes.render, no.render]
  | .print _ value => parenthesized "print" [value.render]
  | .ret _ value => parenthesized "return" (Expr.renderAll value.toList)
  | .var _ name value => parenthesized "var" (name :: Expr.renderAll value.toList)
  | .whileDo _ cond body => parenthesized "while" [cond.render, body.render]

/-- The statements of a sequence, one by one. -/
def Stmt.renderAll : List Stmt → List String
  | [] => []
  | s :: ss => s.render :: Stmt.renderAll ss

end

/-- A program as nested lists, one line for each statement. -/
def Program.render (program : Program) : String :=
  String.join ((Stmt.renderAll program).map (· ++ "\n"))

end BlockScript
