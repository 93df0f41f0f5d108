import BlockScript.Tree
import BlockScript.Fault

/-!
# Values

What expressions evaluate to. Functions are closures: a declaration together with the scope it
was made in. A value holds the number of that scope and not the scope itself, so values are plain
data even where a function is stored in the very scope it captures.

Functions of the host are values too. `clock` is built in; which others there are is up to the
program that embeds the language, so values are generic in a type `H` of host functions. These are
taken as pure: what one gives, or the fault that it ends with, depends on its arguments alone. It
neither reads nor changes a scope, so it cannot look into those that the functions among its
arguments have captured.

## Main definitions

* `Value` — the values
* `Signature`, `Host` — what host functions are called and what they do
* `Value.truthy`, `Value.same`, `Value.display` — truth, equality and text of values
-/

namespace BlockScript

/-- The number of a scope. -/
abbrev ScopeId := Nat

/-- A declared function with the scope it was declared in. -/
structure Closure where
  name : String
  params : List String
  body : List Stmt
  scope : ScopeId

/-- A function that is not written in the language. -/
inductive Native (H : Type) where
  /-- the milliseconds since 1970 -/
  | clock
  | host (function : H)

/-- Values. Each function and each native has a number of its own, which tells it apart from
others that look the same. -/
inductive Value (H : Type) where
  | nil
  | bool (value : Bool)
  | number (value : Float)
  | text (value : String)
  | function (id : Nat) (closure : Closure)
  | native (id : Nat) (fn : Native H)

/-- What host functions are called and how many arguments they take. -/
class Signature (H : Type) where
  name : H → String
  arity : H → Nat

/-- What host functions do. A call is a function of the arguments: it does not see the machine. -/
class Host (H : Type) extends Signature H where
  call : H → List (Value H) → Except Fault (Value H)

instance : Host Empty where
  name := nofun
  arity := nofun
  call := nofun

namespace Native

variable {H : Type} [Signature H]

/-- The name under which a native is defined. -/
def name : Native H → String
  | .clock => "clock"
  | .host function => Signature.name function

/-- The number of arguments that a native takes. -/
def arity : Native H → Nat
  | .clock => 0
  | .host function => Signature.arity function

end Native

namespace Value

variable {H : Type}

/-- The value of a constant. -/
def ofConstant : Constant → Value H
  | .nil => .nil
  | .bool value => .bool value
  | .number value => .number value
  | .text value => .text value

/-- Everything counts as true but `nil` and `false`. -/
def truthy : Value H → Bool
  | .nil | .bool false => false
  | _ => true

/-- The name of a value's type. -/
def typeName : Value H → String
  | .nil => "nil"
  | .bool _ => "bool"
  | .number _ => "number"
  | .text _ => "string"
  | .function .. | .native .. => "function"

/-- Equality as programs see it: by content, and for functions by identity. Values of different
types differ. -/
def same : Value H → Value H → Bool
  | .nil, .nil => true
  | .bool a, .bool b => a == b
  | .number a, .number b => a == b
  | .text a, .text b => a == b
  | .function a _, .function b _ => a == b
  | .native a _, .native b _ => a == b
  | _, _ => false

variable [Signature H]

/-- The text of a value, as `print` writes it. -/
def display : Value H → String
  | .nil => "nil"
  | .bool value => if value then "true" else "false"
  | .number value => Numeral.text value
  | .text value => value
  | .function _ closure => "<func " ++ closure.name ++ ">"
  | .native _ fn => "<native func " ++ fn.name ++ ">"

/-- The name of a function. -/
def name? : Value H → Option String
  | .function _ closure => some closure.name
  | .native _ fn => some fn.name
  | _ => none

/-- The number of arguments of a function. Only functions have one. -/
def arity? : Value H → Option Nat
  | .function _ closure => some closure.params.length
  | .native _ fn => some fn.arity
  | _ => none

/-- A function in a listing for debugging. -/
def inspect? : Value H → Option String
  | .function _ closure =>
    some ("Function(Function \x7b name: " ++ Text.quoted closure.name ++ ", .. \x7d)")
  | .native _ fn => some ("Native(Native(" ++ Text.quoted fn.name ++ "))")
  | _ => none

end Value

end BlockScript
