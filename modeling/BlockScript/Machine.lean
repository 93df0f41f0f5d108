import BlockScript.Scope
import BlockScript.Sink

/-!
# The machine

The state that a running program reads and changes: the scopes, how many functions and natives
were made, the clock and the output. `Eval` is the type of actions on it. An action gives a
value, or stops the program with a fault, or gives up because its fuel is used up; in every case
there is a machine afterwards.

## Main definitions

* `Machine`, `Machine.start` — the state, and a fresh one with `clock` in its global scope
* `Machine.reset` — a machine that starts over with a new global scope
* `Stop`, `Eval` — why and how evaluation ends early
-/

namespace BlockScript

/-- A clock that shows `time n` when it is read for the `n`-th time. -/
structure Clock where
  time : Nat → Float
  readings : Nat

/-- A clock that starts at a time in milliseconds and advances by one every thousand readings. -/
def Clock.startingAt (start : Float) : Clock := ⟨fun n => start + (n / 1000).toFloat, 0⟩

/-- The state of a running program. -/
structure Machine (H : Type) where
  scopes : Scopes H
  /-- the scope of the names declared outside of all blocks and functions -/
  globals : ScopeId
  functionsMade : Nat
  nativesMade : Nat
  clock : Clock
  sink : Sink

/-- Why an evaluation stopped without a value. -/
inductive Stop where
  | failed (fault : Located)
  /-- the fuel did not last; the evaluation itself would have gone on -/
  | exhausted
deriving DecidableEq, Repr

/-- An action on the machine that gives a value or stops the program. -/
abbrev Eval (H : Type) := EStateM Stop (Machine H)

theorem Eval.bind_apply {H α β : Type} (p : Eval H α) (f : α → Eval H β) (m : Machine H) :
    (p >>= f) m =
      match p m with
      | .ok a m => f a m
      | .error stop m => .error stop m := by
  change EStateM.bind p f m = _
  rw [EStateM.bind]
  cases p m <;> rfl

namespace Machine

variable {H : Type}

section

variable [Host H]

/-- Defines a native under its name in the global scope. Each definition makes a new object. -/
def defineNative (m : Machine H) (native : Native H) : Machine H :=
  { m with
    scopes := m.scopes.define m.globals native.name (.native m.nativesMade native)
    nativesMade := m.nativesMade + 1 }

/-- Starts over with a new global scope, in which `clock` is defined anew. The old scopes stay in
the store, but nothing refers to them any more. The clock goes on and what was written stays. -/
def reset (m : Machine H) : Machine H :=
  defineNative { m with scopes := m.scopes.push none, globals := m.scopes.next } .clock

/-- A machine whose only name is `clock`. -/
def start (clock : Clock) (sink : Sink) : Machine H :=
  reset { scopes := .empty, globals := 0, functionsMade := 0, nativesMade := 0, clock, sink }

end

/-! ### Actions -/

/-- Stops the program with a fault. -/
def fail {α : Type} (fault : Fault) (span : Span) : Eval H α := fun m =>
  .error (.failed ⟨fault, span⟩) m

/-- Gives up for lack of fuel. -/
def exhausted {α : Type} : Eval H α := fun m => .error .exhausted m

/-- Opens a new scope. -/
def newScope (parent : Option ScopeId) : Eval H ScopeId := fun m =>
  .ok m.scopes.next { m with scopes := m.scopes.push parent }

/-- Binds a name in a scope. -/
def define (scope : ScopeId) (name : String) (value : Value H) : Eval H Unit := fun m =>
  .ok () { m with scopes := m.scopes.define scope name value }

/-- Reads a name that is used in a scope. -/
def lookup (scope : ScopeId) (name : String) (span : Span) : Eval H (Value H) := fun m =>
  match m.scopes.get? scope name with
  | some value => .ok value m
  | none => fail (.undefinedName name) span m

/-- Changes the binding of a name that is used in a scope. -/
def assign (scope : ScopeId) (name : String) (value : Value H) (span : Span) : Eval H Unit :=
  fun m =>
    match m.scopes.resolve scope name with
    | some owner => .ok () { m with scopes := m.scopes.define owner name value }
    | none => fail (.undefinedName name) span m

/-- Makes a function. -/
def makeFunction (closure : Closure) : Eval H (Value H) := fun m =>
  .ok (.function m.functionsMade closure) { m with functionsMade := m.functionsMade + 1 }

/-- Makes a native without giving it a name. -/
def makeNative (native : Native H) : Eval H (Value H) := fun m =>
  .ok (.native m.nativesMade native) { m with nativesMade := m.nativesMade + 1 }

/-- Reads the clock. -/
def readClock : Eval H (Value H) := fun m =>
  .ok (.number (m.clock.time m.clock.readings))
    { m with clock := { m.clock with readings := m.clock.readings + 1 } }

/-- Writes a text, or as much of it as the sink takes. -/
def write (text : String) (span : Span) : Eval H Unit := fun m =>
  let fits := m.sink.fits text
  let m := { m with sink := m.sink.write text }
  if fits then .ok () m else fail (.writeRefused "stdout") span m

end Machine

end BlockScript
