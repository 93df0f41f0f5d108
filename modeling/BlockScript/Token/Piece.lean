import BlockScript.Token
import BlockScript.Text.Bytes
import BlockScript.Numeral.Reading

/-!
# Cutting a source into pieces

A source is cut into pieces from left to right: tokens, blanks, comments, runs of characters that
start no token, and a string literal that is never closed. Each piece is as long as its class
allows, and the texts of the pieces, put together, are the source again. Tokens, faults and
highlighting are all read off the pieces.

## Main definitions

* `Piece` — a stretch of source and what it is
* `Piece.first` — the piece a text begins with, and the text after it
* `Piece.split` — all pieces of a text

## Main results

* `Piece.first_append` — the first piece and the rest make up the text
* `Piece.flatMap_split` — the texts of the pieces make up the source
-/

namespace BlockScript

namespace Piece

/-- What a stretch of source is. -/
inductive Class where
  | token (kind : Token.Kind)
  | blank
  | comment
  /-- characters that start no token -/
  | unexpected
  /-- a string literal that the source never closes -/
  | openString
deriving DecidableEq, Repr

end Piece

/-- A stretch of source and what it is. -/
structure Piece where
  cls : Piece.Class
  text : List Char
deriving DecidableEq, Repr

namespace Piece

/-! ### Character classes -/

/-- Characters that only separate tokens. -/
def isBlank (c : Char) : Bool :=
  c = ' ' || c = '\r' || c = '\n' || c = '\t' || c = '\x0c'

/-- Characters that an identifier or keyword can begin with. -/
def isWordStart (c : Char) : Bool :=
  ('a' ≤ c && c ≤ 'z') || ('A' ≤ c && c ≤ 'Z') || c = '_'

/-- Characters that an identifier or keyword can go on with. -/
def isWordPart (c : Char) : Bool := isWordStart c || Numeral.isDigit c

/-- Characters that no token, blank or comment begins with. -/
def isUnexpected (c : Char) : Bool :=
  !isBlank c && !isWordStart c && !Numeral.isDigit c && c ≠ '"' && (Symbol.ofChar? c).isNone

/-! ### The first piece -/

/-- A piece made of `c` and the characters after it that satisfy `p`. -/
def run (cls : Class) (p : Char → Bool) (c : Char) (cs : List Char) : Piece × List Char :=
  (⟨cls, c :: cs.takeWhile p⟩, cs.dropWhile p)

/-- The kind of a word: the keyword it spells, or else an identifier. -/
def wordKind (word : List Char) : Token.Kind :=
  match Keyword.ofSpelling? (String.ofList word) with
  | some keyword => .keyword keyword
  | none => .identifier

/-- An identifier or keyword that begins with `c`. -/
def word (c : Char) (cs : List Char) : Piece × List Char :=
  let text := c :: cs.takeWhile isWordPart
  (⟨.token (wordKind text), text⟩, cs.dropWhile isWordPart)

/-- A number that begins with the digit `c`. A point belongs to it only if a digit follows. -/
def number (c : Char) (cs : List Char) : Piece × List Char :=
  let whole := c :: cs.takeWhile Numeral.isDigit
  match cs.dropWhile Numeral.isDigit with
  | '.' :: d :: rest =>
    if Numeral.isDigit d then
      (⟨.token .number, whole ++ '.' :: d :: rest.takeWhile Numeral.isDigit⟩,
        rest.dropWhile Numeral.isDigit)
    else (⟨.token .number, whole⟩, '.' :: d :: rest)
  | rest => (⟨.token .number, whole⟩, rest)

/-- A string literal after its opening quote `q`: up to the next quote, or open to the end. -/
def quotation (q : Char) (cs : List Char) : Piece × List Char :=
  match cs.dropWhile (· ≠ '"') with
  | close :: rest => (⟨.token .string, q :: cs.takeWhile (· ≠ '"') ++ [close]⟩, rest)
  | [] => (⟨.openString, q :: cs⟩, [])

/-- A symbol that begins with `c`, the longer one if an equals sign follows, or a run of
characters that start nothing. -/
def symbolOrUnexpected (c : Char) (cs : List Char) : Piece × List Char :=
  match Symbol.withEqual? c, cs with
  | some symbol, '=' :: rest => (⟨.token (.symbol symbol), [c, '=']⟩, rest)
  | _, cs =>
    match Symbol.ofChar? c with
    | some symbol => (⟨.token (.symbol symbol), [c]⟩, cs)
    | none => run .unexpected isUnexpected c cs

/-- The piece that the text `c :: cs` begins with, and the text after it. -/
def first (c : Char) (cs : List Char) : Piece × List Char :=
  if isBlank c then run .blank isBlank c cs
  else if c = '/' && cs.head? = some '/' then run .comment (· ≠ '\n') c cs
  else if isWordStart c then word c cs
  else if Numeral.isDigit c then number c cs
  else if c = '"' then quotation c cs
  else symbolOrUnexpected c cs

theorem run_append (cls : Class) (p : Char → Bool) (c : Char) (cs : List Char) :
    (run cls p c cs).1.text ++ (run cls p c cs).2 = c :: cs := by
  simp [run]

theorem word_append (c : Char) (cs : List Char) :
    (word c cs).1.text ++ (word c cs).2 = c :: cs := by
  simp [word]

theorem number_append (c : Char) (cs : List Char) :
    (number c cs).1.text ++ (number c cs).2 = c :: cs := by
  have split := List.takeWhile_append_dropWhile (p := Numeral.isDigit) (l := cs)
  unfold number
  split
  · rename_i d rest heq
    rw [heq] at split
    split <;>
      simp only [List.cons_append, List.append_assoc, List.takeWhile_append_dropWhile, split]
  · simp

theorem quotation_append (q : Char) (cs : List Char) :
    (quotation q cs).1.text ++ (quotation q cs).2 = q :: cs := by
  have split := List.takeWhile_append_dropWhile (p := (· ≠ '"')) (l := cs)
  unfold quotation
  split
  · rename_i close rest heq
    rw [heq] at split
    simp only [List.cons_append, List.append_assoc, List.nil_append, split]
  · simp

theorem symbolOrUnexpected_append (c : Char) (cs : List Char) :
    (symbolOrUnexpected c cs).1.text ++ (symbolOrUnexpected c cs).2 = c :: cs := by
  unfold symbolOrUnexpected
  split
  · simp
  · split
    · simp
    · exact run_append ..

/-- The first piece and the rest make up the text. -/
theorem first_append (c : Char) (cs : List Char) :
    (first c cs).1.text ++ (first c cs).2 = c :: cs := by
  unfold first
  repeat' split
  · exact run_append ..
  · exact run_append ..
  · exact word_append ..
  · exact number_append ..
  · exact quotation_append ..
  · exact symbolOrUnexpected_append ..

theorem first_text_ne_nil (c : Char) (cs : List Char) : (first c cs).1.text ≠ [] := by
  unfold first run word number quotation symbolOrUnexpected
  grind [run]

/-- What follows the first piece is shorter than the text. -/
theorem length_first_lt (c : Char) (cs : List Char) : (first c cs).2.length < (c :: cs).length := by
  have key := congrArg List.length (first_append c cs)
  have pos := List.length_pos_iff.mpr (first_text_ne_nil c cs)
  rw [List.length_append] at key
  omega

/-! ### All pieces -/

/-- The pieces of a text, from left to right. -/
def split : List Char → List Piece
  | [] => []
  | c :: cs => (first c cs).1 :: split (first c cs).2
termination_by cs => cs.length
decreasing_by exact length_first_lt c cs

/-- The texts of the pieces make up the source. -/
theorem flatMap_split (cs : List Char) : (split cs).flatMap text = cs := by
  fun_induction split cs with
  | case1 => rfl
  | case2 c cs ih => rw [List.flatMap_cons, ih, first_append]

end Piece

end BlockScript
