/-!
# Blanks

The characters that trimming takes off: the twenty-five with the property of white space.

* `Text.isBlank` — the property.
* `Text.trim` — a text without the blanks at its ends.
-/

namespace RevisionLog.Text

/-- First and last code points of the runs of blanks. -/
def blankRanges : List (Nat × Nat) :=
  [(0x9, 0xd), (0x20, 0x20), (0x85, 0x85), (0xa0, 0xa0), (0x1680, 0x1680), (0x2000, 0x200a),
    (0x2028, 0x2029), (0x202f, 0x202f), (0x205f, 0x205f), (0x3000, 0x3000)]

/-- Whether a character is a blank. -/
def isBlank (c : Char) : Bool :=
  blankRanges.any fun (first, last) => first ≤ c.toNat && c.toNat ≤ last

/-- A text without the characters of a class at its ends. -/
def stripEnds (p : Char → Bool) (cs : List Char) : List Char :=
  ((cs.dropWhile p).reverse.dropWhile p).reverse

/-- A text without the blanks at its ends. -/
def trim (cs : List Char) : List Char := stripEnds isBlank cs

/-- Whether a character is one of the six spaces allowed around a number in a column. -/
def isSpace (c : Char) : Bool := c = ' ' || (0x9 ≤ c.toNat && c.toNat ≤ 0xd)

end RevisionLog.Text
