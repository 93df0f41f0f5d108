/-!
# Numbers read from text

Decimals become numbers with correct rounding: too large a value becomes infinite and too small a
one zero. `ofLiteral` reads the number literals of the language, `ofText?` the wider form with a
sign, an exponent and the names of the values that are not finite.
-/

namespace BlockScript

namespace Numeral

/-- A decimal digit. -/
def isDigit (c : Char) : Bool := '0' ≤ c && c ≤ '9'

/-- The number written as digits with an optional point and further digits. -/
def ofLiteral (cs : List Char) : Float :=
  let whole := cs.takeWhile (· ≠ '.')
  let fraction := (cs.dropWhile (· ≠ '.')).drop 1
  Float.ofScientific (Nat.ofDigitChars 10 (whole ++ fraction) 0) true fraction.length

/-- A sign in front of a text, and what follows it. -/
def signOf : List Char → Bool × List Char
  | '-' :: cs => (true, cs)
  | '+' :: cs => (false, cs)
  | cs => (false, cs)

/-- The exponent part of a number: nothing, or `e` with a whole number. -/
def exponentOf? : List Char → Option Int
  | [] => some 0
  | c :: cs =>
    let (negative, digits) := signOf cs
    if (c = 'e' || c = 'E') && !digits.isEmpty && digits.all isDigit then
      let size := Nat.ofDigitChars 10 digits 0
      some (if negative then -(size : Int) else size)
    else none

/-- A magnitude with digits before the point, after it, or both, and an optional exponent. -/
def magnitudeOf? (cs : List Char) : Option Float :=
  let whole := cs.takeWhile isDigit
  let rest := cs.dropWhile isDigit
  let (fraction, rest) :=
    match rest with
    | '.' :: rest => (rest.takeWhile isDigit, rest.dropWhile isDigit)
    | rest => ([], rest)
  if whole.isEmpty && fraction.isEmpty then none
  else do
    let exponent ← exponentOf? rest
    let scale := exponent - fraction.length
    return Float.ofScientific (Nat.ofDigitChars 10 (whole ++ fraction) 0) (scale < 0) scale.natAbs

/-- The names of the values that are not finite, in any case of letters. -/
def namedOf? (cs : List Char) : Option Float :=
  let word := String.ofList (cs.map Char.toLower)
  if word = "inf" || word = "infinity" then some (1.0 / 0.0)
  else if word = "nan" then some (0.0 / 0.0)
  else none

/-- The number that a text stands for, if it stands for one. -/
def ofText? (text : String) : Option Float := do
  let (negative, cs) := signOf text.toList
  let magnitude ← (namedOf? cs).or (magnitudeOf? cs)
  return if negative then -magnitude else magnitude

end Numeral

end BlockScript
