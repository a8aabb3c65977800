/-!
# Name patterns

Names are selected by a pattern of characters in which `%` stands for any run, `_` for one
character, and a backslash takes the character behind it literally. Letters of the ASCII range match
in either case. A NUL ends a pattern and a name. The engine cannot tell two characters from the
replacement character.

* `Pattern.ofPrefix` — the pattern for the names that begin with a text.
* `Pattern.pieces?` — a pattern taken apart.
* `Pattern.finds` — whether a pattern matches, given when characters are the same.
* `Pattern.selects` — whether the engine selects a name.
-/

namespace RevisionLog

namespace Pattern

/-- One element of a pattern. -/
inductive Piece
  | literal (c : Char)
  | one
  | run
  deriving DecidableEq, Repr

/-- Whether a character has a meaning of its own in a pattern. -/
def isSpecial (c : Char) : Bool := c = '%' || c = '_' || c = '\\'

/-- A text with a backslash before every special character. -/
def escape : List Char → List Char
  | [] => []
  | c :: cs => if isSpecial c then '\\' :: c :: escape cs else c :: escape cs

/-- The pattern for the names that begin with `start`. -/
def ofPrefix (start : String) : String := String.ofList (escape start.toList ++ ['%'])

/-- A pattern taken apart. A backslash with nothing behind it makes a pattern that selects
nothing. -/
def pieces? : List Char → Option (List Piece)
  | [] => some []
  | ['\\'] => none
  | '\\' :: c :: cs => (pieces? cs).map (.literal c :: ·)
  | '%' :: cs => (pieces? cs).map (.run :: ·)
  | '_' :: cs => (pieces? cs).map (.one :: ·)
  | c :: cs => (pieces? cs).map (.literal c :: ·)

/-- What stands before the first NUL. -/
def untilNul (cs : List Char) : List Char := cs.takeWhile (· ≠ '\x00')

/-! ## Matching -/

section Matching

variable {α : Type} (same : Char → α → Bool)

/-- A list and all that remains of it as elements are taken off its front. -/
def suffixes : List α → List (List α)
  | [] => [[]]
  | c :: cs => (c :: cs) :: suffixes cs

/-- Whether the pieces take up the whole name. -/
def covers : List Piece → List α → Bool
  | [], cs => cs.isEmpty
  | .run :: ps, cs => (suffixes cs).any (covers ps)
  | .one :: _, [] => false
  | .one :: ps, _ :: cs => covers ps cs
  | .literal _ :: _, [] => false
  | .literal p :: ps, c :: cs => same p c && covers ps cs

/-- Whether a pattern matches a name, where `same` tells which characters are the same. -/
def finds (pattern : List Char) (name : List α) : Bool :=
  match pieces? (untilNul pattern) with
  | some ps => covers same ps (name.takeWhile fun c => !same '\x00' c)
  | none => false

end Matching

/-! ## The engine -/

/-- Equality of characters up to the case of ASCII letters. -/
def sameLetter (a b : Char) : Bool := a.toLower = b.toLower

/-- What the engine reads a character as. The last two of the first plane are read as the one that
stands for what is no character. -/
def seen (c : Char) : Char := if c = '\ufffe' ∨ c = '\uffff' then '\ufffd' else c

/-- Equality of characters as the engine reads them. -/
def looksSame (a b : Char) : Bool := sameLetter (seen a) (seen b)

/-- Whether the engine selects a name. -/
def selects (pattern name : List Char) : Bool := finds looksSame pattern name

/-- Whether the engine selects a name of which it cannot read every character. -/
def selectsRead (pattern : List Char) (name : List (Option Char)) : Bool :=
  finds (fun p c => c.any (looksSame p)) pattern name

/-- The greatest number of bytes a pattern may have to be matched at all. -/
def sizeLimit : Nat := 50000

end Pattern

end RevisionLog
