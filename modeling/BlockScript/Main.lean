import BlockScript.CommandLine
import BlockScript.Script
import Std.Time.DateTime.Timestamp

/-!
# The program

Reads the command line, then runs a script or an interactive session. Files, the terminal and the
time are dealt with here and everything else in the library.
-/

namespace BlockScript

namespace Main

/-- What is shown for help, and for a command line that cannot be understood. -/
def usage : String :=
  "usage: lox [-v] [repl]\n       lox [-v] run [--print-ast] PATH\n"

/-- A clock that shows the present time. -/
def presentClock : IO Clock := do
  let now ← Std.Time.Timestamp.now
  return .startingAt (Float.ofInt now.toMillisecondsSinceUnixEpoch.val)

/-- Why the system could not read a file. A path through a file cannot be opened; a directory can,
and only fails to be read. -/
def readFault (e : IO.Error) : ReadFault :=
  match e with
  | .noFileOrDirectory .. => .notFound
  | .inappropriateType (some _) _ _ => .notDirectory
  | .inappropriateType none _ _ => .isDirectory
  | .invalidArgument _ _ "name too long" => .nameTooLong
  | e => .other (toString e)

/-- The text of a file. -/
def readText (path : String) : IO (Except ReadFault String) := do
  try
    return textOfBytes (← IO.FS.readBinFile path)
  catch e => return .error (readFault e)

/-- Takes inputs until the end of the standard input. `pending` holds the lines of an input that
is not complete yet. -/
partial def interact (pending : String) (m : Machine Empty) : IO Unit := do
  IO.print (if pending.isEmpty then Session.prompt.left else Session.prompt.continuation)
  (← IO.getStdout).flush
  let line ← (← IO.getStdin).getLine
  if line.isEmpty then return
  let source := pending ++ line
  match Session.enter source m with
  | (.incomplete, m) => interact source m
  | (.ran outcome report, m) =>
    IO.print outcome.output
    IO.eprint report
    interact "" m

/-- Does what the command line asks for, and gives the exit code. -/
def perform (command : Command) : IO Nat := do
  let clock ← presentClock
  match command with
  | .interactive =>
    interact "" (.start clock (.empty none))
    return 0
  | .run path showTree =>
    let transcript := Script.runFile clock path (← readText path) showTree
    IO.print transcript.stdout
    IO.eprint transcript.stderr
    return transcript.exit

end Main

end BlockScript

/-- The program. -/
def main (args : List String) : IO UInt32 := do
  match BlockScript.Invocation.ofArgs args with
  | .error .information =>
    IO.print BlockScript.Main.usage
    return 0
  | .error .usage =>
    IO.eprint BlockScript.Main.usage
    return BlockScript.Script.exitUsage.toUInt32
  | .ok invocation =>
    let exit ← BlockScript.Main.perform (invocation.command.getD .interactive)
    return exit.toUInt32
