import BlockScript.Machine
import BlockScript.Machine.Stack

/-!
# Evaluation

Expressions give values and statements run, in a scope of the machine. Evaluation follows the
tree, but for two things: a call runs the body of a function, and a loop runs its body again and
again. Both take fuel. `callWith n` runs calls nested at most `n` deep, in which no loop turns
more than `n` times, and gives up where that is not enough.

## Main definitions

* `Flow` — how a statement ended
* `evalExpr`, `execStmt` — evaluation, given what a call does
* `callWith` — calls, by recursion on the fuel
* `Machine.execute` — a whole program
-/

namespace BlockScript

variable {H : Type}

/-- How a statement ended. -/
inductive Flow (H : Type) where
  | normal
  /-- a `return` is on its way out of the function -/
  | returned (value : Value H)

/-- What a call of a function with counted arguments does. The span is where it is made. -/
abbrev Call (H : Type) := Value H → List (Value H) → Span → Eval H (Value H)

/-! ### Operators -/

/-- The value of an operator on one operand. -/
def UnaryOp.apply (op : UnaryOp) (operand : Value H) : Except Fault (Value H) :=
  match op, operand with
  | .negate, .number x => .ok (.number (-x))
  | .negate, _ => .error .operandNotNumber
  | .not, v => .ok (.bool !v.truthy)

/-- The value of an operator on two operands. -/
def BinaryOp.apply (op : BinaryOp) (left right : Value H) : Except Fault (Value H) :=
  match op, left, right with
  | .add, .number a, .number b => .ok (.number (a + b))
  | .add, .text a, .text b => .ok (.text (a ++ b))
  | .add, _, _ => .error .operandsNotNumbersOrStrings
  | .equal, a, b => .ok (.bool (a.same b))
  | .notEqual, a, b => .ok (.bool !a.same b)
  | .subtract, .number a, .number b => .ok (.number (a - b))
  | .multiply, .number a, .number b => .ok (.number (a * b))
  | .divide, .number a, .number b => .ok (.number (a / b))
  | .less, .number a, .number b => .ok (.bool (a < b))
  | .lessEqual, .number a, .number b => .ok (.bool (a ≤ b))
  | .greater, .number a, .number b => .ok (.bool (b < a))
  | .greaterEqual, .number a, .number b => .ok (.bool (b ≤ a))
  | _, _, _ => .error .operandsNotNumbers

/-- Whether the left operand decides the value, so that the right one is not evaluated. -/
def LogicalOp.decidedBy (op : LogicalOp) (left : Value H) : Bool :=
  match op with
  | .and => !left.truthy
  | .or => left.truthy

/-- A value, or the fault at a place. -/
def orFail {α : Type} (result : Except Fault α) (span : Span) : Eval H α :=
  match result with
  | .ok a => pure a
  | .error fault => Machine.fail fault span

/-! ### Expressions -/

/-- Stops the program unless `callee` is a function of `count` arguments. -/
def checkCall [Host H] (callee : Value H) (count : Nat) (span : Span) : Eval H Unit :=
  match callee.arity? with
  | none => Machine.fail (.notCallable callee.typeName) span
  | some arity =>
    if arity = count then pure () else Machine.fail (.arityMismatch arity count) span

mutual

/-- The value of an expression in a scope. -/
def evalExpr [Host H] (call : Call H) (scope : ScopeId) : Expr → Eval H (Value H)
  | .literal _ value => pure (.ofConstant value)
  | .ident span name => Machine.lookup scope name span
  | .assign span name value => do
    let v ← evalExpr call scope value
    Machine.assign scope name v span
    return v
  | .unary span op operand => do
    let v ← evalExpr call scope operand
    orFail (op.apply v) span
  | .binary span op left right => do
    let a ← evalExpr call scope left
    let b ← evalExpr call scope right
    orFail (op.apply a b) span
  | .logical _ op left right => do
    let a ← evalExpr call scope left
    if op.decidedBy a then return a else evalExpr call scope right
  | .group _ inner => evalExpr call scope inner
  | .call _ paren callee args => do
    let f ← evalExpr call scope callee
    let values ← evalArgs call scope args
    checkCall f values.length paren
    call f values paren

/-- The values of arguments, from left to right. -/
def evalArgs [Host H] (call : Call H) (scope : ScopeId) : List Expr → Eval H (List (Value H))
  | [] => pure []
  | e :: es => do
    let v ← evalExpr call scope e
    let vs ← evalArgs call scope es
    return v :: vs

end

/-- The value of an optional expression, `nil` if it is missing. -/
def evalOptional [Host H] (call : Call H) (scope : ScopeId) : Option Expr → Eval H (Value H)
  | some e => evalExpr call scope e
  | none => pure .nil

/-! ### Statements -/

/-- Runs `body` as long as `cond` gives a true value, at most `turns` times. -/
def repeatWhile (cond : Eval H (Value H)) (body : Eval H (Flow H)) : (turns : Nat) → Eval H (Flow H)
  | 0 => Machine.exhausted
  | turns + 1 => do
    let v ← cond
    if v.truthy then
      match ← body with
      | .normal => repeatWhile cond body turns
      | .returned value => return .returned value
    else return .normal

mutual

/-- Runs a statement in a scope. Loops turn at most `turns` times. -/
def execStmt [Host H] (call : Call H) (turns : Nat) (scope : ScopeId) : Stmt → Eval H (Flow H)
  | .block _ body => do
    let inner ← Machine.newScope (some scope)
    execAll call turns inner body
  | .expr _ value => do
    let _ ← evalExpr call scope value
    return .normal
  | .func _ name params body => do
    let f ← Machine.makeFunction ⟨name, params, body, scope⟩
    Machine.define scope name f
    return .normal
  | .ifThen _ cond yes => do
    let v ← evalExpr call scope cond
    if v.truthy then execStmt call turns scope yes else return .normal
  | .ifElse _ cond yes no => do
    let v ← evalExpr call scope cond
    if v.truthy then execStmt call turns scope yes else execStmt call turns scope no
  | .print span value => do
    let v ← evalExpr call scope value
    Machine.write (v.display ++ "\n") span
    return .normal
  | .ret _ value => do
    let v ← evalOptional call scope value
    return .returned v
  | .var _ name value => do
    let v ← evalOptional call scope value
    Machine.define scope name v
    return .normal
  | .whileDo _ cond body =>
    repeatWhile (evalExpr call scope cond) (execStmt call turns scope body) turns

/-- Runs statements in order, up to the first that returns. -/
def execAll [Host H] (call : Call H) (turns : Nat) (scope : ScopeId) : List Stmt → Eval H (Flow H)
  | [] => pure .normal
  | s :: ss => do
    match ← execStmt call turns scope s with
    | .normal => execAll call turns scope ss
    | .returned value => return .returned value

end

/-! ### Calls -/

/-- Binds parameters to arguments. Parameters without an argument stay unbound, arguments without
a parameter are dropped, and of two parameters of one name the later one counts. -/
def bindParams (scope : ScopeId) : List String → List (Value H) → Eval H Unit
  | param :: params, arg :: args => do
    Machine.define scope param arg
    bindParams scope params args
  | _, _ => pure ()

/-- Calls a function whose body is run by `exec`. The body sees the scope the function was
declared in and not that of the caller. -/
def enter [Host H] (exec : ScopeId → List Stmt → Eval H (Flow H)) : Call H
  | .function _ closure, args, _ => do
    let scope ← Machine.newScope (some closure.scope)
    bindParams scope closure.params args
    match ← exec scope closure.body with
    | .normal => return .nil
    | .returned value => return value
  | .native _ .clock, _, _ => Machine.readClock
  | .native _ (.host function), args, span => orFail (Host.call function args) span
  | other, _, span => Machine.fail (.notCallable other.typeName) span

/-- Calls, with the given fuel. -/
def callWith [Host H] : (fuel : Nat) → Call H
  | 0 => fun _ _ _ => Machine.exhausted
  | fuel + 1 => fun callee args span =>
    Machine.roomy fuel (enter (execAll (callWith fuel) fuel) callee args span)

theorem callWith_succ [Host H] (fuel : Nat) :
    (callWith (fuel + 1) : Call H) = enter (execAll (callWith fuel) fuel) := by
  funext callee args span m
  exact Machine.roomy_eq ..

/-- Calls a value after a check that it takes so many arguments. -/
def callChecked [Host H] (fuel : Nat) : Call H := fun callee args span => do
  checkCall callee args.length span
  callWith fuel callee args span

/-! ### Programs -/

namespace Machine

variable [Host H]

/-- More fuel than any run can use. -/
def ample : Nat := 1000000000000000000

/-- How a program ended. -/
inductive Ending where
  | finished
  | failed (fault : Located)
  | exhausted
deriving DecidableEq, Repr

/-- Runs a program in the global scope. A `return` outside of all functions ends it quietly. -/
def execute (fuel : Nat) (program : Program) (m : Machine H) : Ending × Machine H :=
  match execAll (callWith fuel) fuel m.globals program m with
  | .ok _ m => (.finished, m)
  | .error (.failed fault) m => (.failed fault, m)
  | .error .exhausted m => (.exhausted, m)

end Machine

end BlockScript
