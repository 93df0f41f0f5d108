import BlockScript.Parser.Statement
import BlockScript.Token.Scan

/-!
# Parsing a source

`parseTokens` reads a list of tokens up to the first end of input and keeps every declaration
that could be read. `parse` reads a whole source and accepts it only without any fault, and
`isComplete` tells whether more input could still change the verdict on it.

## Main definitions

* `parseTokens` — the declarations that could be read, and the faults
* `parse` — the program of a source without faults
* `isComplete` — whether a source is ready to be run or refused
-/

namespace BlockScript

/-- The declarations that could be read, and the faults in the order they were found. -/
structure Parsed where
  program : Program
  faults : List Located

/-- Where a list of tokens ends: at its first end of input, or where its last token stops. -/
def endOfTokens (tokens : List Token) : Span :=
  match tokens.find? (·.kind = .endOfInput), tokens.getLast? with
  | some token, _ => token.span
  | none, some token => .empty token.span.stop
  | none, none => .empty 0

/-- The state before the first token. -/
def Parser.State.start (tokens : List Token) : Parser.State :=
  { rest := tokens.takeWhile (·.kind ≠ .endOfInput)
    finish := endOfTokens tokens
    lastStop := 0
    depth := 0
    faults := [] }

/-- Parses a list of tokens up to its first end of input. -/
def parseTokens (tokens : List Token) : Parsed :=
  let start := Parser.State.start tokens
  match Parser.program (start.rest.length + 1) start with
  | .ok program s => ⟨program, s.faults⟩
  | .error fault s => ⟨[], s.faults ++ [fault]⟩

/-- A source as it was read: what the scanner refused, and what the parser kept and refused. -/
structure Reading where
  scanFaults : List Located
  parsed : Parsed

/-- Reads a source. -/
def read (source : String) : Reading :=
  let scanned := scan source
  ⟨scanned.faults, parseTokens scanned.tokens⟩

/-- All faults of a source in the order of their places, those of the scanner first at the same
place. -/
def Reading.faults (reading : Reading) : List Located :=
  Located.inOrder (reading.scanFaults ++ reading.parsed.faults)

/-- The program of a source, or the faults that stand against it. -/
def parse (source : String) : Except (List Located) Program :=
  let reading := read source
  if reading.faults.isEmpty then .ok reading.parsed.program else .error reading.faults

/-- Whether a fault says that the source of the given length broke off too early. -/
def Located.atEnd (length : Nat) (fault : Located) : Bool :=
  fault.fault = .unterminatedString || fault.span.start = length

/-- Whether a source is ready to be run or refused: none of its faults could be mended by more
input. -/
def isComplete (source : String) : Bool :=
  !(read source).faults.any (Located.atEnd source.utf8ByteSize)

end BlockScript
