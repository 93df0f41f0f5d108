import BlockScript.Value

/-!
# Basic host functions

A small set of host functions for programs that embed the language: they look at values, compare
and combine them. Each refuses arguments it has no use for.
-/

namespace BlockScript

/-- The basic host functions. -/
inductive BasicFunction where
  /-- twice a number -/
  | twice
  /-- the name of the type of a value -/
  | type
  /-- whether a value counts as true -/
  | truthy
  /-- the text of a value -/
  | display
  /-- whether two values are equal -/
  | same
  /-- two strings put together -/
  | join
  /-- the second argument if the first counts as true, else the third -/
  | pick
  /-- always fails -/
  | fail
  /-- a clock that stands still -/
  | stoppedClock
deriving DecidableEq, Repr

namespace BasicFunction

/-- The name of a basic function. -/
def name : BasicFunction → String
  | .twice => "twice"
  | .type => "type"
  | .truthy => "truthy"
  | .display => "show"
  | .same => "same"
  | .join => "join"
  | .pick => "pick"
  | .fail => "fail"
  | .stoppedClock => "clock"

/-- The number of arguments of a basic function. -/
def arity : BasicFunction → Nat
  | .twice | .type | .truthy | .display => 1
  | .same | .join => 2
  | .pick => 3
  | .fail | .stoppedClock => 0

/-- All basic functions. -/
def all : List BasicFunction :=
  [.twice, .type, .truthy, .display, .same, .join, .pick, .fail, .stoppedClock]

/-- The basic function of the given name. -/
def ofName? (name : String) : Option BasicFunction := all.find? (·.name = name)

instance : Signature BasicFunction := ⟨name, arity⟩

/-- What a basic function does. -/
def call : BasicFunction → List (Value BasicFunction) → Except Fault (Value BasicFunction)
  | .twice, [.number x] => .ok (.number (2 * x))
  | .type, [v] => .ok (.text v.typeName)
  | .truthy, [v] => .ok (.bool v.truthy)
  | .display, [v] => .ok (.text v.display)
  | .same, [a, b] => .ok (.bool (a.same b))
  | .join, [.text a, .text b] => .ok (.text (a ++ b))
  | .join, [_, _] => .error .operandsNotNumbersOrStrings
  | .pick, [c, a, b] => .ok (if c.truthy then a else b)
  | .fail, [] => .error (.undefinedName "fail")
  | .stoppedClock, [] => .ok (.number 42)
  | _, _ => .error .operandNotNumber

instance : Host BasicFunction := ⟨call⟩

end BasicFunction

end BlockScript
