/-!
# Byte lengths of texts

Positions in a source are byte offsets into its UTF-8 form, while the scanner walks over
characters. `byteLength` relates the two: it is the number of bytes a list of characters takes.

## Main results

* `byteLength_append` — lengths add up along a concatenation
* `utf8ByteSize_eq_byteLength` — the length of a source
* `byteLength_pos` — a text with a character in it is not empty in bytes either
-/

namespace BlockScript

namespace Text

/-- The number of bytes of `cs` in UTF-8. -/
def byteLength (cs : List Char) : Nat := (String.ofList cs).utf8ByteSize

@[simp] theorem byteLength_nil : byteLength [] = 0 := rfl

@[simp] theorem byteLength_append (cs ds : List Char) :
    byteLength (cs ++ ds) = byteLength cs + byteLength ds := by
  rw [byteLength, String.ofList_append, String.utf8ByteSize_append, byteLength, byteLength]

@[simp] theorem byteLength_cons (c : Char) (cs : List Char) :
    byteLength (c :: cs) = c.utf8Size + byteLength cs := by
  rw [byteLength, String.ofList_cons, String.utf8ByteSize_append, String.utf8ByteSize_singleton,
    byteLength]

theorem utf8ByteSize_eq_byteLength (s : String) : s.utf8ByteSize = byteLength s.toList := by
  rw [byteLength, String.ofList_toList]

theorem byteLength_pos {cs : List Char} (h : cs ≠ []) : 0 < byteLength cs := by
  cases cs with
  | nil => exact absurd rfl h
  | cons c cs =>
    rw [byteLength_cons]
    exact Nat.lt_of_lt_of_le c.utf8Size_pos (Nat.le_add_right _ _)

/-- The number of line feeds in `cs`. -/
def lineFeeds (cs : List Char) : Nat := cs.count '\n'

@[simp] theorem lineFeeds_append (cs ds : List Char) :
    lineFeeds (cs ++ ds) = lineFeeds cs + lineFeeds ds := by
  simp [lineFeeds, List.count_append]

/-- White space, in the sense of Unicode. -/
def isSpace (c : Char) : Bool :=
  let n := c.toNat
  (9 ≤ n && n ≤ 13) || n = 0x20 || n = 0x85 || n = 0xa0 || n = 0x1680 ||
    (0x2000 ≤ n && n ≤ 0x200a) || n = 0x2028 || n = 0x2029 || n = 0x202f || n = 0x205f ||
    n = 0x3000

/-- A table of character ranges, both ends included. -/
abbrev Ranges := List (Nat × Nat)

/-- Whether one of the ranges holds `c`. -/
def Ranges.holds (ranges : Ranges) (c : Char) : Bool :=
  ranges.any fun (low, high) => low ≤ c.toNat && c.toNat ≤ high

end Text

end BlockScript
