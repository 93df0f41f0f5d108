import BlockScript.Text.Printable

/-!
# Quoted text

A text between double quotes, with everything that would be misread or not seen written as an
escape. Diagnostics show the source characters they complain about this way.
-/

namespace BlockScript

namespace Text

/-- The escape `\u{…}` with the code point of `c` in lower-case hexadecimal. -/
def codePointEscape (c : Char) : List Char :=
  ['\\', 'u', '\x7b'] ++ Nat.toDigits 16 c.toNat ++ ['\x7d']

/-- One character as it stands between double quotes. A single quote needs no escape there. -/
def escapeChar (c : Char) : List Char :=
  match c with
  | '\x00' => ['\\', '0']
  | '\t' => ['\\', 't']
  | '\r' => ['\\', 'r']
  | '\n' => ['\\', 'n']
  | '"' => ['\\', '"']
  | '\\' => ['\\', '\\']
  | c => if printable c then [c] else codePointEscape c

/-- The text between double quotes, escaped character by character. -/
def quoted (text : String) : String :=
  String.ofList (['"'] ++ text.toList.flatMap escapeChar ++ ['"'])

end Text

end BlockScript
