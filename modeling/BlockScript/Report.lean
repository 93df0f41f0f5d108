import BlockScript.Fault
import BlockScript.Text.Width

/-!
# Reports

A report shows each fault with the lines of source it is about. A fault within one line has the
text underlined with carets. A fault over several lines has a frame drawn at their left, from a
first to a last caret, and the middle of a long stretch is left out. Lines are always shown from
top to bottom, so a span that runs backwards has the end of its frame above the start.

## Main definitions

* `Line`, `Line.ofSource` — the lines of a source and where they start
* `Report.header` — the message, and the line and column of its start
* `Report.underlined`, `Report.framed` — the two kinds of excerpts
* `report` — all faults in the order of their places
-/

namespace BlockScript

/-- A line of a source with its line feed, and the byte offset where it starts. -/
structure Line where
  start : Nat
  text : List Char
deriving DecidableEq, Repr

namespace Line

/-- The lines of a text. Each line but the last ends with a line feed. -/
def split (cs : List Char) : List (List Char) :=
  cs.foldr (fun c lines =>
    match lines with
    | line :: others => if c = '\n' then [c] :: line :: others else (c :: line) :: others
    | [] => [[c]]) [[]]

/-- Lines one after the other, the first at `start`. -/
def place (start : Nat) : List (List Char) → List Line
  | [] => []
  | text :: texts => ⟨start, text⟩ :: place (start + Text.byteLength text) texts

/-- The lines of a source. -/
def ofSource (source : String) : List Line := place 0 (split source.toList)

/-- The number of the line, from one, that an offset belongs to: the last line that starts at or
before it. -/
def numberAt (lines : List Line) (offset : Nat) : Nat :=
  (lines.filter fun line => line.start ≤ offset).length

/-- The line with the given number. -/
def get (lines : List Line) (number : Nat) : Line := lines.getD (number - 1) ⟨0, []⟩

/-- The line without the characters that end it. -/
def shown (line : Line) : List Char :=
  (line.text.reverse.dropWhile fun c => c = '\n' || c = '\r' || c = '\x00').reverse

/-- The number of characters that end at or before `offset`, the first of them at `position`. -/
def countUpTo (offset position : Nat) : List Char → Nat
  | [] => 0
  | c :: cs =>
    let stop := position + c.utf8Size
    (if stop ≤ offset then 1 else 0) + countUpTo offset stop cs

/-- The column, from one, of an offset: the characters of the line that end at or before it. -/
def columnAt (line : Line) (offset : Nat) : Nat := countUpTo offset line.start line.text + 1

end Line

namespace Report

/-! ### Characters in columns -/

/-- A character of a line, its byte offset in the line and its width on the screen. -/
structure Glyph where
  char : Char
  offset : Nat
  width : Nat

/-- The distance between tab stops. -/
def tabStop : Nat := 4

/-- The glyphs of a text that starts at a byte offset and a column. A tab reaches to the next tab
stop. -/
def glyphsFrom (offset column : Nat) : List Char → List Glyph
  | [] => []
  | c :: cs =>
    let width := if c = '\t' then tabStop - column % tabStop else Text.charWidth c
    ⟨c, offset, width⟩ :: glyphsFrom (offset + c.utf8Size) (column + width) cs

/-- The glyphs of a line. -/
def glyphs (line : Line) : List Glyph := glyphsFrom 0 0 line.shown

/-- A glyph as it is shown: a tab as spaces and anything else as it is. -/
def Glyph.shown (g : Glyph) : List Char :=
  if g.char = '\t' then List.replicate g.width ' ' else [g.char]

/-- The text of a line as it is shown. -/
def lineText (line : Line) : String := String.ofList ((glyphs line).flatMap Glyph.shown)

/-- The columns taken by the glyphs that start before a byte offset in the line. -/
def columnsBefore (line : Line) (offset : Nat) : Nat :=
  ((glyphs line).filter fun g => g.offset < offset).foldl (fun columns g => columns + g.width) 0

/-- The marks below one glyph: carets if its bytes meet `start` up to `stop`, spaces before that
and nothing after. -/
def marks (start stop : Nat) (offset size width : Nat) : List Char :=
  if offset < stop && start < offset + size then List.replicate width '^'
  else if offset < stop then List.replicate width ' '
  else []

/-- The marks below a line. The end of the line counts as one more character. -/
def underline (line : Line) (start stop : Nat) : String :=
  String.ofList <|
    ((glyphs line).flatMap fun g => marks start stop g.offset g.char.utf8Size g.width) ++
      marks start stop (Text.byteLength line.shown) 1 1

/-! ### Layout -/

/-- The spaces that keep the frame clear of line numbers of the given width. -/
def margin (width : Nat) : String := String.ofList (List.replicate width ' ')

/-- A line number at the right of the margin. -/
def numbered (width number : Nat) : String :=
  let digits := toString number
  margin (width - digits.length) ++ digits

/-- A horizontal stroke. -/
def stroke (length : Nat) : String := String.ofList (List.replicate length '─')

/-- The excerpt for a fault within one line, which has the given number. -/
def underlined (width number : Nat) (line : Line) (span : Span) : List String :=
  let start := span.start - line.start
  let stop := max (span.stop - line.start) (start + 1)
  [margin width ++ " │",
    numbered width number ++ " │ " ++ lineText line,
    margin width ++ " │ " ++ underline line start stop]

/-- How many lines are always shown after the first line of a frame. -/
def linesAfterFirst : Nat := 3

/-- How many lines are always shown before the last line of a frame. -/
def linesBeforeLast : Nat := 1

/-- The numbers from `start` up to, and without, `stop`. -/
def numbers (start stop : Nat) : List Nat := (List.range (stop - start)).map (start + ·)

/-- The mark for lines that are left out. -/
def omission (width : Nat) : String := margin width ++ " · │"

/-- The lines between the first and the last of a frame: all of them, or those near the two ends
with a mark for the others if more than one is left out. -/
def between (width : Nat) (lines : List Line) (first last : Nat) : List String :=
  let inner (number : Nat) := numbered width number ++ " │ │ " ++ lineText (Line.get lines number)
  let gapStart := first + 1 + linesAfterFirst
  let gapStop := last - linesBeforeLast
  if gapStart + 1 < gapStop then
    (numbers (first + 1) gapStart).map inner ++ [omission width] ++ (numbers gapStop last).map inner
  else (numbers (first + 1) last).map inner

/-- The lines between the end and the start of a span that runs backwards. None of them is in the
frame; a single one is shown. -/
def outside (width : Nat) (lines : List Line) (last first : Nat) : List String :=
  match numbers (last + 1) first with
  | [] => []
  | [number] => [numbered width number ++ " │   " ++ lineText (Line.get lines number)]
  | _ => [omission width]

/-- The excerpt for a fault that starts and ends in different lines. -/
def framed (width : Nat) (lines : List Line) (first last : Nat) (span : Span) : List String :=
  let firstLine := Line.get lines first
  let lastLine := Line.get lines last
  let start := span.start - firstLine.start
  let stop := span.stop - lastLine.start
  let opening :=
    if start ≤ Text.byteLength (firstLine.shown.takeWhile Text.isSpace) then
      [numbered width first ++ " │ ╭ " ++ lineText firstLine]
    else
      [numbered width first ++ " │   " ++ lineText firstLine,
        margin width ++ " │ ╭" ++ stroke (columnsBefore firstLine (start + 1)) ++ "^"]
  let closing :=
    [numbered width last ++ " │ │ " ++ lineText lastLine,
      margin width ++ " │ ╰" ++ stroke (columnsBefore lastLine stop) ++ "^"]
  (margin width ++ " │  ") ::
    if first < last then opening ++ between width lines first last ++ closing
    else closing ++ outside width lines last first ++ opening

/-- The message of a fault, and the name of the source with line and column. -/
def header (name : String) (width number : Nat) (line : Line) (fault : Located) : List String :=
  ["error[" ++ fault.fault.code ++ "]: " ++ fault.fault.message,
    margin width ++ " ┌─ " ++ name ++ ":" ++ toString number ++ ":" ++
      toString (line.columnAt fault.span.start)]

/-- One fault with its excerpt and an empty line after it. -/
def entry (name : String) (lines : List Line) (fault : Located) : String :=
  let first := Line.numberAt lines fault.span.start
  let last := Line.numberAt lines fault.span.stop
  let width := (toString (max first last)).length
  let line := Line.get lines first
  let excerpt :=
    if first = last then underlined width first line fault.span
    else framed width lines first last fault.span
  String.join ((header name width first line fault ++ excerpt ++ [""]).map (· ++ "\n"))

end Report

/-- A report on the faults of a source with the given name, in the order of their places. -/
def report (name source : String) (faults : List Located) : String :=
  String.join ((Located.inOrder faults).map (Report.entry name (Line.ofSource source)))

end BlockScript
