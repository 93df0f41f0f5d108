/-!
# The fewest digits that identify a number

A number is stored in binary, and many decimals round to the same stored value. Its text is the
decimal with the fewest digits among those; of two equally short ones the nearer is taken, and of
two equally near ones the larger.

The search is exact. The decimals with `k` zeros at the end form a grid of multiples of `10 ^ k`,
and fewer digits means a coarser grid. So the search starts on a grid that is coarser than the
number itself and refines it until one of the two grid points around the number reads back.
It ends at the latest on the grid that holds the number exactly.

## Main definitions

* `Binary`, `Binary.readsBack` — a stored magnitude, and the decimals that round to it
* `Binary.onGrid` — the best decimal on one grid, if any reads back
* `Binary.shortest` — the result of the search
* `Decimal.positional` — a decimal written out without an exponent
-/

namespace BlockScript

namespace Numeral

/-- The decimal `digits * 10 ^ exponent`. -/
structure Decimal where
  digits : Nat
  exponent : Int
deriving DecidableEq, Repr

/-- The magnitude `mantissa * 2 ^ exponent` of a finite number. -/
structure Binary where
  mantissa : Nat
  exponent : Int
deriving DecidableEq, Repr

/-- What the bits of a number stand for. -/
inductive Form where
  | notANumber
  | infinite (negative : Bool)
  | finite (negative : Bool) (magnitude : Binary)
deriving DecidableEq, Repr

/-- The exponent of the finest grid of binary numbers. -/
def minExponent : Int := -1074

/-- The mantissa at which the grid of binary numbers below turns finer. -/
def leastNormal : Nat := 0x10000000000000

/-- The number of values of the exponent field. -/
def fieldValues : Nat := 0x800

/-- Reads sign, exponent field and fraction field of a number. -/
def Form.ofFloat (x : Float) : Form :=
  let bits := x.toBits.toNat
  let negative := 0x8000000000000000 ≤ bits
  let field := bits / leastNormal % fieldValues
  let fraction := bits % leastNormal
  if field = fieldValues - 1 then
    if fraction = 0 then .infinite negative else .notANumber
  else if field = 0 then
    .finite negative ⟨fraction, minExponent⟩
  else
    .finite negative ⟨leastNormal + fraction, minExponent + (field : Int) - 1⟩

namespace Binary

/-- The ratio of the binary unit `2 ^ exponent` to the decimal unit `10 ^ k`, as a fraction. -/
def unitRatio (b : Binary) (k : Int) : Nat × Nat :=
  (Nat.pow 2 b.exponent.toNat * Nat.pow 10 (-k).toNat,
    Nat.pow 2 (-b.exponent).toNat * Nat.pow 10 k.toNat)

/-- The distance down to the nearest decimal that no longer reads back, in quarters of the binary
unit. It is smaller where the grid of binary numbers turns finer. -/
def quartersBelow (b : Binary) : Nat :=
  if b.mantissa = leastNormal ∧ minExponent < b.exponent then 1 else 2

/-- Whether `digits * 10 ^ k` rounds to `b`: it lies between the two midpoints around `b`, and on
one of them only if the mantissa is even. -/
def readsBack (b : Binary) (k : Int) (digits : Nat) : Bool :=
  let (num, den) := b.unitRatio k
  let low := (4 * b.mantissa - b.quartersBelow) * num
  let high := (4 * b.mantissa + 2) * num
  let point := 4 * digits * den
  if b.mantissa % 2 = 0 then low ≤ point && point ≤ high else low < point && point < high

/-- The best decimal for `b` among the multiples of `10 ^ k`, if one of them reads back. -/
def onGrid (b : Binary) (k : Int) : Option Decimal :=
  let (num, den) := b.unitRatio k
  let below := b.mantissa * num / den
  let above := below + 1
  match b.readsBack k below, b.readsBack k above with
  | true, true =>
    if 2 * b.mantissa * num < (below + above) * den then some ⟨below, k⟩ else some ⟨above, k⟩
  | true, false => some ⟨below, k⟩
  | false, true => some ⟨above, k⟩
  | false, false => none

/-- The value of `b` as a decimal, without rounding. -/
def exact (b : Binary) : Decimal :=
  if b.exponent < 0 then ⟨b.mantissa * Nat.pow 5 (-b.exponent).toNat, b.exponent⟩
  else ⟨b.mantissa * Nat.pow 2 b.exponent.toNat, 0⟩

/-- Refines the grid `10 ^ k` up to `steps` times, until a decimal reads back. -/
def refine (b : Binary) : (steps : Nat) → (k : Int) → Decimal
  | 0, _ => b.exact
  | steps + 1, k =>
    match b.onGrid k with
    | some d => d
    | none => b.refine steps (k - 1)

/-- An exponent `k` with `b` below `10 ^ k`. -/
def coarseExponent (b : Binary) : Int :=
  ((Nat.log2 b.mantissa : Int) + b.exponent + 1) * 301 / 1000 + 2

/-- The decimal with the fewest digits that reads back as `b`. -/
def shortest (b : Binary) : Decimal :=
  b.refine (b.coarseExponent - min b.exponent 0).toNat b.coarseExponent

end Binary

/-- A decimal written out with all its zeros and no exponent. -/
def Decimal.positional (d : Decimal) : String :=
  let digits := Nat.toDigits 10 d.digits
  let places := (-d.exponent).toNat
  String.ofList <|
    if 0 ≤ d.exponent then digits ++ List.replicate d.exponent.toNat '0'
    else if places < digits.length then
      digits.take (digits.length - places) ++ '.' :: digits.drop (digits.length - places)
    else '0' :: '.' :: List.replicate (places - digits.length) '0' ++ digits

/-- The text of a magnitude. -/
def Binary.text (b : Binary) : String :=
  if b.mantissa = 0 then "0" else b.shortest.positional

/-- The text of a number: the fewest digits that identify it, written out without an exponent. -/
def text (x : Float) : String :=
  let signed (negative : Bool) (s : String) := if negative then "-" ++ s else s
  match Form.ofFloat x with
  | .notANumber => "NaN"
  | .infinite negative => signed negative "inf"
  | .finite negative magnitude => signed negative magnitude.text

end Numeral

end BlockScript
