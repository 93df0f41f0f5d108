import BlockScript.Session
import BlockScript.Tree.Printer
import BlockScript.Directory

/-!
# Running a script

A script is read from a file and run once on a machine of its own. The exit code tells what came
of it: `0` if it ran to its end, `65` for syntax errors, `70` for a fault while it ran, `74` if
the file could not be read. A command line that cannot be understood exits with `64`.
-/

namespace BlockScript

namespace Script

/-- The exit code for a command line that cannot be understood. -/
def exitUsage : Nat := 64

/-- The exit code for syntax errors. -/
def exitSyntax : Nat := 65

/-- The exit code for a fault while a script ran. -/
def exitFault : Nat := 70

/-- The exit code for a file that could not be read. -/
def exitUnreadable : Nat := 74

/-- What a script leaves behind. -/
structure Transcript where
  exit : Nat
  stdout : String
  stderr : String

/-- The exit code for how a run ended. -/
def exitCode : Status → Nat
  | .refused => exitSyntax
  | .failed | .exhausted => exitFault
  | .finished => 0

/-- The answer to a path that could not be read. -/
def unreadable (path : String) (fault : ReadFault) : Transcript :=
  ⟨exitUnreadable, "", "lox: could not read file: " ++ path ++ ": " ++ fault.message ++ "\n"⟩

/-- Runs the script of the given name. Its tree is shown first, if asked for, unless it has
syntax errors. -/
def run (clock : Clock) (path source : String) (showTree : Bool) : Transcript :=
  let machine : Machine Empty := .start clock (.empty none)
  let (outcome, _) := Session.run false source machine
  let tree :=
    if showTree && outcome.status ≠ .refused then Program.render (read source).parsed.program
    else ""
  ⟨exitCode outcome.status, tree ++ outcome.output, report path source outcome.faults⟩

/-- Runs the script at a path whose content was read, or not. -/
def runFile (clock : Clock) (path : String) (content : Except ReadFault String)
    (showTree : Bool) : Transcript :=
  match content with
  | .ok source => run clock path source showTree
  | .error fault => unreadable path fault

end Script

end BlockScript
