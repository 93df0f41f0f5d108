import BlockScript.Token.Piece
import BlockScript.Fault

/-!
# Scanning a source

The tokens and the faults of a source, read off its pieces. A piece lies where the texts before
it end, and its line is one more than the number of line feeds before it. Blanks and comments
leave nothing behind, so tokens and faults together cover all the rest.

## Main definitions

* `Piece.Placed`, `Piece.place` — pieces with their places in the source
* `Scan`, `scan` — the tokens and faults of a source
-/

namespace BlockScript

namespace Piece

/-- A piece, the byte offset where it starts and its line. -/
structure Placed where
  piece : Piece
  start : Nat
  line : Nat

/-- Places pieces one after the other, the first at `start` on `line`. -/
def place (start line : Nat) : List Piece → List Placed
  | [] => []
  | p :: ps =>
    ⟨p, start, line⟩ :: place (start + Text.byteLength p.text) (line + Text.lineFeeds p.text) ps

namespace Placed

/-- The bytes that a placed piece takes. -/
def span (placed : Placed) : Span :=
  ⟨placed.start, placed.start + Text.byteLength placed.piece.text⟩

/-- The text of a placed piece. -/
def text (placed : Placed) : String := String.ofList placed.piece.text

end Placed

/-- The value of a literal of the given kind and text. -/
def literal? : Token.Kind → List Char → Option Literal
  | .number, text => some (.number (Numeral.ofLiteral text))
  | .string, text => some (.text (String.ofList (text.drop 1).dropLast))
  | _, _ => none

/-- The token that a placed piece is, if it is one. -/
def Placed.token? (placed : Placed) : Option Token :=
  match placed.piece.cls with
  | .token kind => some
    { kind, lexeme := placed.text, literal := literal? kind placed.piece.text,
      line := placed.line, span := placed.span }
  | _ => none

/-- The fault that a placed piece is, if it is one. -/
def Placed.fault? (placed : Placed) : Option Located :=
  match placed.piece.cls with
  | .unexpected => some ⟨.unexpectedText placed.text, placed.span⟩
  | .openString => some ⟨.unterminatedString, placed.span⟩
  | _ => none

/-- The pieces of a source in their places. -/
def ofSource (source : String) : List Placed := place 0 1 (split source.toList)

end Piece

/-- The tokens of a source, ended by an end of input, and its faults, both from left to right. -/
structure Scan where
  tokens : List Token
  faults : List Located

/-- Scans a source. -/
def scan (source : String) : Scan :=
  let placed := Piece.ofSource source
  let last := Token.endOfInput source.utf8ByteSize (1 + Text.lineFeeds source.toList)
  { tokens := placed.filterMap Piece.Placed.token? ++ [last]
    faults := placed.filterMap Piece.Placed.fault? }

end BlockScript
