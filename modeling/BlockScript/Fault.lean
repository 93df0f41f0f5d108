import BlockScript.Span
import BlockScript.Text.Quoted

/-!
# Faults

Everything that can be wrong with a program, by cause: what the scanner and the parser refuse and
what a run can stumble over. `Fault.message` holds all the wording, `Fault.category` the class a
diagnostic is filed under, and `Located` ties a fault to the text it is about.
-/

namespace BlockScript

/-- What went wrong. -/
inductive Fault where
  /-- A write to the named file was refused. -/
  | writeRefused (file : String)
  /-- No scope in reach binds the name. -/
  | undefinedName (name : String)
  /-- The grammar requires something else here. -/
  | expected (what : String)
  /-- The grammar requires an expression here. -/
  | expectedExpression
  /-- The left side of an assignment is not a variable. -/
  | invalidTarget
  /-- A `return` that no function encloses. -/
  | returnOutsideFunction
  /-- A call with more than `max` arguments. -/
  | tooManyArguments (max : Nat)
  /-- A function with more than `max` parameters. -/
  | tooManyParameters (max : Nat)
  /-- Characters that start no token. -/
  | unexpectedText (text : String)
  /-- A string literal that is never closed. -/
  | unterminatedString
  /-- A call with the wrong number of arguments. -/
  | arityMismatch (wanted got : Nat)
  /-- A call of a value that is no function. -/
  | notCallable (typeName : String)
  /-- A negation of something that is no number. -/
  | operandNotNumber
  /-- Arithmetic or a comparison on something that is no number. -/
  | operandsNotNumbers
  /-- An addition of neither two numbers nor two strings. -/
  | operandsNotNumbersOrStrings
deriving DecidableEq, Repr

namespace Fault

/-- The class a fault is filed under. -/
inductive Category where
  | output
  | name
  | grammar
  | type
deriving DecidableEq, Repr

/-- The code that a diagnostic shows for a class of faults. -/
def Category.code : Category → String
  | .output => "IOError"
  | .name => "NameError"
  | .grammar => "SyntaxError"
  | .type => "TypeError"

/-- The class of a fault. -/
def category : Fault → Category
  | .writeRefused _ => .output
  | .undefinedName _ => .name
  | .expected _ | .expectedExpression | .invalidTarget | .returnOutsideFunction
  | .tooManyArguments _ | .tooManyParameters _ | .unexpectedText _ | .unterminatedString => .grammar
  | .arityMismatch .. | .notCallable _ | .operandNotNumber | .operandsNotNumbers
  | .operandsNotNumbersOrStrings => .type

/-- The code that a diagnostic shows for a fault. -/
def code (fault : Fault) : String := fault.category.code

/-- The sentence that tells the user what is wrong. -/
def message : Fault → String
  | .writeRefused file => "Unable to write to " ++ file ++ "."
  | .undefinedName name => "Undefined variable '" ++ name ++ "'."
  | .expected what => "Expect " ++ what ++ "."
  | .expectedExpression => "Expect expression."
  | .invalidTarget => "Invalid assignment target."
  | .returnOutsideFunction => "Can't return from top-level code."
  | .tooManyArguments max => "Can't have more than " ++ toString max ++ " arguments."
  | .tooManyParameters max => "Can't have more than " ++ toString max ++ " parameters."
  | .unexpectedText text => "Unexpected character " ++ Text.quoted text ++ "."
  | .unterminatedString => "Unterminated string."
  | .arityMismatch wanted got =>
    "Expected " ++ toString wanted ++ " arguments but got " ++ toString got ++ "."
  | .notCallable typeName => "Can only call functions, not " ++ typeName ++ "."
  | .operandNotNumber => "Operand must be a number."
  | .operandsNotNumbers => "Operands must be numbers."
  | .operandsNotNumbersOrStrings => "Operands must be two numbers or two strings."

end Fault

/-- A fault and the text it is about. -/
structure Located where
  fault : Fault
  span : Span
deriving DecidableEq, Repr

namespace Located

/-- Faults in the order of their spans. Faults of one span keep their order. -/
def inOrder (faults : List Located) : List Located :=
  faults.mergeSort fun a b => a.span.precedes b.span

end Located

end BlockScript
