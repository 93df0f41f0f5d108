import BlockScript.Eval
import BlockScript.Parser
import BlockScript.Report

/-!
# Sessions

A session runs sources one after the other on one machine, so that what one declares the next can
use. An interactive session first makes sure that a source is complete, and answers with a
report if there are faults.

## Main definitions

* `Outcome`, `Session.run` — a source is read and run
* `Session.Answer`, `Session.enter` — one input of an interactive session
-/

namespace BlockScript

/-- How the run of a source ended. -/
inductive Status where
  /-- it has syntax errors, and nothing was run -/
  | refused
  /-- it stopped with a fault -/
  | failed
  | finished
  /-- the fuel did not last -/
  | exhausted
deriving DecidableEq, Repr

/-- What came of a source: what it wrote and what stands against it. -/
structure Outcome where
  status : Status
  output : String
  faults : List Located
deriving DecidableEq, Repr

namespace Session

variable {H : Type} [Host H]

/-- Runs a program with the given fuel and collects what it writes. -/
def runWith (fuel : Nat) (program : Program) (m : Machine H) : Outcome × Machine H :=
  let before := m.sink.written.size
  let (ending, after) := m.execute fuel program
  let output := after.sink.textFrom before
  match ending with
  | .finished => (⟨.finished, output, []⟩, after)
  | .failed fault => (⟨.failed, output, [fault]⟩, after)
  | .exhausted => (⟨.exhausted, output, []⟩, after)

/-- Runs a program and collects what it writes. -/
def runProgram (program : Program) (m : Machine H) : Outcome × Machine H :=
  runWith Machine.ample program m

/-- Reads and runs a source. A source with faults is refused, unless `lenient`: then the
declarations that could be read are run. -/
def run (lenient : Bool) (source : String) (m : Machine H) : Outcome × Machine H :=
  let reading := read source
  if lenient || reading.faults.isEmpty then runProgram reading.parsed.program m
  else (⟨.refused, "", reading.faults⟩, m)

/-- The function that the first statement of a source declares, as it stands in a scope. -/
def closure? (source : String) (scope : ScopeId) : Option Closure :=
  match (read source).parsed.program with
  | .func _ name params body :: _ => some ⟨name, params, body, scope⟩
  | _ => none

/-- The answer to one input. -/
inductive Answer where
  /-- the input goes on in the next line -/
  | incomplete
  | ran (outcome : Outcome) (report : String)

/-- The name of the input in reports. -/
def inputName : String := "<stdin>"

/-- Takes one input of an interactive session. -/
def enter (source : String) (m : Machine H) : Answer × Machine H :=
  if isComplete source then
    let (outcome, m) := run false source m
    (.ran outcome (report inputName source outcome.faults), m)
  else (.incomplete, m)

/-- What is shown where input is expected: to the left and the right of it, before it, before
further lines of it, and while earlier input is searched. -/
structure Prompt where
  left : String
  right : String
  indicator : String
  continuation : String
  search : String

/-- The prompt of an interactive session. -/
def prompt : Prompt := ⟨">>> ", "", "", "... ", ""⟩

end Session

end BlockScript
