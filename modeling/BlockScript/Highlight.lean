import BlockScript.Token.Scan

/-!
# Highlighting

The line that is being typed is shown in colours: each token in the colour of its kind, what is
no token in red, and the blanks and comments between them as one stretch. The texts, put
together, are the line again.

## Main definitions

* `Colour`, `Piece.Class.colour?` — the colours, and which tokens and faults have which
* `Highlight.gapColour` — the colour of what stands between them
* `highlight` — the coloured stretches of a line
-/

namespace BlockScript

/-- The colours of a terminal that are used. -/
inductive Colour where
  | lightPurple | lightCyan | lightGreen | lightRed | lightGray | darkGray | red
deriving DecidableEq, Repr

/-- The name of a colour. -/
def Colour.name : Colour → String
  | .lightPurple => "LightPurple"
  | .lightCyan => "LightCyan"
  | .lightGreen => "LightGreen"
  | .lightRed => "LightRed"
  | .lightGray => "LightGray"
  | .darkGray => "DarkGray"
  | .red => "Red"

/-- The colour of a kind of token: keywords, constants, strings, names and the rest. -/
def Token.Kind.colour : Token.Kind → Colour
  | .keyword .falseWord | .keyword .nilWord | .keyword .trueWord | .number => .lightCyan
  | .keyword _ => .lightPurple
  | .string => .lightGreen
  | .identifier => .lightRed
  | _ => .lightGray

/-- The colour of a token or of what is no token. Blanks and comments have none of their own. -/
def Piece.Class.colour? : Piece.Class → Option Colour
  | .token kind => some kind.colour
  | .unexpected | .openString => some .red
  | .blank | .comment => none

namespace Highlight

/-- The colour of what stands between tokens. There is a comment in it if the first thing in it that
is no space is one. -/
def gapColour (gap : String) : Colour :=
  if ['/', '/'].isPrefixOf (gap.toList.dropWhile Text.isSpace) then .darkGray else .lightGray

/-- The stretch between two tokens, which may be empty. -/
def gap (line : String) (span : Span) : Colour × String :=
  (gapColour (span.textIn line), span.textIn line)

/-- The colour and the place of a piece that has a colour of its own. -/
def mark? (placed : Piece.Placed) : Option (Colour × Span) :=
  placed.piece.cls.colour?.map fun colour => (colour, placed.span)

/-- The stretches of a line from an offset on, where the pieces with a colour of their own are at
the given places. -/
def stretches (line : String) (start : Nat) : List (Colour × Span) → List (Colour × String)
  | [] => [gap line ⟨start, line.utf8ByteSize⟩]
  | (colour, span) :: marks =>
    gap line ⟨start, span.start⟩ :: (colour, span.textIn line) :: stretches line span.stop marks

end Highlight

/-- The coloured stretches of a line. -/
def highlight (line : String) : List (Colour × String) :=
  (Highlight.stretches line 0 ((Piece.ofSource line).filterMap Highlight.mark?)).filter
    fun part => !part.2.isEmpty

end BlockScript
