import BlockScript.Token
import BlockScript.Fault

/-!
# The parser's state

The parser reads tokens from the left. A fault either breaks off the declaration at hand or is
recorded while the parser goes on; both kinds end up in one list. The state also counts the
functions around the current token, since a `return` needs one.

## Main definitions

* `Parser.State` — what the parser has left to read and what it has found
* `Parser` — actions on the state that can break off
* `Parser.State.synchronize` — where parsing goes on after a declaration broke off
-/

namespace BlockScript

namespace Parser

/-- What the parser has left to read and what it has found so far. -/
structure State where
  /-- the tokens still to be read, without the end of input -/
  rest : List Token
  /-- where the input ends -/
  finish : Span
  /-- the end of the last token read, zero before the first one -/
  lastStop : Nat
  /-- the number of functions around the next token -/
  depth : Nat
  /-- the faults found, in the order they were found -/
  faults : List Located

namespace State

/-- The span of the next token, or of the end of input. -/
def here (s : State) : Span :=
  match s.rest with
  | token :: _ => token.span
  | [] => s.finish

/-- Reads one token, if there is one. -/
def advance (s : State) : State :=
  match s.rest with
  | token :: rest => { s with rest, lastStop := token.span.stop }
  | [] => s

/-- Records a fault. -/
def record (s : State) (fault : Located) : State := { s with faults := s.faults ++ [fault] }

/-- Whether the next token is of the given kind. -/
def nextIs (s : State) (kind : Token.Kind) : Bool :=
  match s.rest with
  | token :: _ => token.kind = kind
  | [] => false

end State

/-- Skips tokens after `skipped` up to the next probable statement: past a semicolon, or before a
keyword that starts a statement. Returns the last token skipped and those left. -/
def skipFrom (skipped : Token) : List Token → Token × List Token
  | [] => (skipped, [])
  | token :: rest =>
    if skipped.kind = .symbol .semicolon || token.kind.startsStatement then (skipped, token :: rest)
    else skipFrom token rest

/-- Goes to where parsing resumes after a declaration broke off. The next token is always
skipped, so that the parser makes progress. -/
def State.synchronize (s : State) : State :=
  match s.rest with
  | token :: rest =>
    let (last, rest) := skipFrom token rest
    { s with rest, lastStop := last.span.stop }
  | [] => s

end Parser

/-- An action on the parser's state that gives a value or breaks off with a fault. -/
abbrev Parser := EStateM Located Parser.State

namespace Parser

/-- Breaks off with a fault at the next token. -/
def failHere {α : Type} (fault : Fault) : Parser α := fun s => .error ⟨fault, s.here⟩ s

/-- Records a fault and goes on. -/
def report (fault : Fault) (span : Span) : Parser Unit := fun s => .ok () (s.record ⟨fault, span⟩)

/-- The span of the next token. -/
def here : Parser Span := fun s => .ok s.here s

/-- Whether the next token is of the given kind. -/
def nextIs (kind : Token.Kind) : Parser Bool := fun s => .ok (s.nextIs kind) s

/-- Reads the next token if `select` has a value for its kind. -/
def accept? {α : Type} (select : Token.Kind → Option α) : Parser (Option (α × Token)) := fun s =>
  match s.rest with
  | token :: _ =>
    match select token.kind with
    | some a => .ok (some (a, token)) s.advance
    | none => .ok none s
  | [] => .ok none s

/-- Reads the next token if it is of the given kind. -/
def acceptKind? (kind : Token.Kind) : Parser (Option Token) := fun s =>
  match s.rest with
  | token :: _ => if token.kind = kind then .ok (some token) s.advance else .ok none s
  | [] => .ok none s

/-- Reads a token of the given kind, or breaks off. -/
def expect (kind : Token.Kind) (what : String) : Parser Token := fun s =>
  match s.rest with
  | token :: _ => if token.kind = kind then .ok token s.advance else failHere (.expected what) s
  | [] => failHere (.expected what) s

/-- Runs `body` unless the next token is of the given kind. -/
def unlessNext {α : Type} (kind : Token.Kind) (body : Parser α) : Parser (Option α) := do
  if ← nextIs kind then return none
  some <$> body

/-- The span from an offset to the end of the last token read. -/
def spanFrom (start : Nat) : Parser Span := fun s => .ok ⟨start, s.lastStop⟩ s

/-- Runs `body` as the inside of a function. -/
def insideFunction {α : Type} (body : Parser α) : Parser α := fun s =>
  match body { s with depth := s.depth + 1 } with
  | .ok a s' => .ok a { s' with depth := s.depth }
  | .error e s' => .error e { s' with depth := s.depth }

/-- Runs `body`. If it breaks off, the fault is recorded and parsing resumes at the next probable
statement, with nothing to show for what was skipped. -/
def recover {α : Type} (body : Parser α) : Parser (Option α) := fun s =>
  match body s with
  | .ok a s' => .ok (some a) s'
  | .error fault s' => .ok none (s'.record fault).synchronize

end Parser

end BlockScript
