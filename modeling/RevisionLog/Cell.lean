import RevisionLog.Decimal.Numeral
import RevisionLog.Decimal.Significant
import RevisionLog.Revision
import RevisionLog.Text.Blank
import RevisionLog.Text.Octets
import RevisionLog.Truth

/-!
# Cells

What a column of a row can hold, whatever the column was declared as.

* `Cell.Class` — the five storage classes, named as messages name them.
* `Cell.order` — the total order of cells: no value, then numbers, then text, then bytes.
* `Cell.isZero` — the condition that a cell equals zero.
* `Cell.payload` — any cell read as bytes.
* `Affinity.apply` — what a column of a declared kind makes of a cell written to it.
-/

namespace RevisionLog

/-- The content of one column of one row. -/
inductive Cell
  /-- no value -/
  | null
  | integer (n : Int)
  | real (x : Binary64)
  | text (s : String)
  | blob (b : Octets)
  deriving DecidableEq, Repr, Inhabited

namespace Cell

/-- A storage class. -/
inductive Class
  | null
  | integer
  | real
  | text
  | blob
  deriving DecidableEq, Repr

/-- The name of a storage class in messages. -/
def Class.name : Class → String
  | null => "Null"
  | integer => "Integer"
  | real => "Real"
  | text => "Text"
  | blob => "Blob"

/-- The storage class of a cell. -/
def storage : Cell → Class
  | null => .null
  | integer _ => .integer
  | real _ => .real
  | text _ => .text
  | blob _ => .blob

/-- A truth value as it is stored. -/
def ofBool (b : Bool) : Cell := integer (if b then 1 else 0)

/-! ## Order and equality -/

/-- Order of two texts or two sequences of bytes by their first difference. -/
def orderBy {α : Type} [Ord α] : List α → List α → Ordering
  | [], [] => .eq
  | [], _ :: _ => .lt
  | _ :: _, [] => .gt
  | a :: as, b :: bs => (compare a b).then (orderBy as bs)

/-- Order of two texts by their bytes, which is the order of their characters' numbers. -/
def orderText (s t : String) : Ordering :=
  orderBy (s.toList.map Char.toNat) (t.toList.map Char.toNat)

/-- The total order of cells. -/
def order : Cell → Cell → Ordering
  | null, null => .eq
  | null, _ => .lt
  | _, null => .gt
  | integer m, integer n => compare m n
  | integer m, real y => (y.compareInt m).swap
  | real x, integer n => x.compareInt n
  | real x, real y => x.compare y
  | integer _, _ => .lt
  | real _, _ => .lt
  | _, integer _ => .gt
  | _, real _ => .gt
  | text s, text t => orderText s t
  | text _, blob _ => .lt
  | blob _, text _ => .gt
  | blob b, blob c => orderBy (b.map UInt8.toNat) (c.map UInt8.toNat)

/-- The condition that two cells are equal, unknown where one has no value. -/
def equals (a b : Cell) : Truth :=
  if a = null ∨ b = null then none else some (a.order b = .eq)

/-- The condition that a cell is the number zero. -/
def isZero (c : Cell) : Truth := c.equals (integer 0)

@[simp] theorem isZero_null : isZero null = none := rfl

@[simp] theorem isZero_integer (n : Int) : isZero (integer n) = some (decide (n = 0)) := by
  simp [isZero, equals, order]

/-! ## Reading -/

/-- Any cell as bytes: none for no value, and the decimal text of a number. -/
def payload : Cell → Octets
  | null => []
  | integer n => Text.octets (toString n)
  | real x => Text.octets x.shortest
  | text s => Text.octets s
  | blob b => b

/-- The characters a pattern is matched against. Of bytes some may be read as none. -/
def characters : Cell → List (Option Char)
  | null => []
  | integer n => (toString n).toList.map some
  | real x => x.significant.toList.map some
  | text s => s.toList.map some
  | blob b => Text.lenient b

end Cell

/-- The declared kind of a column. -/
inductive Affinity
  | integer
  | text
  | blob
  deriving DecidableEq, Repr

namespace Affinity

/-- A real as an integer, where it is whole and strictly inside the range of revisions. -/
def narrow (x : Binary64) : Cell :=
  match x.toInt? with
  | some n => if Revision.least < n ∧ n < Revision.greatest then .integer n else .real x
  | none => .real x

/-- A numeral as a number: an integer if it is written as one that fits, else the nearest real,
narrowed. -/
def ofNumeral (n : Numeral) : Cell :=
  match n.toInt?.bind Revision.fit? with
  | some m => .integer m
  | none => narrow n.toBinary64

/-- What a column makes of a cell. Integer columns turn numeric text and whole reals into integers,
text columns turn numbers into text, and all else stays. -/
def apply : Affinity → Cell → Cell
  | integer, .text s =>
    match Numeral.read? (Text.stripEnds Text.isSpace s.toList) with
    | some n => ofNumeral n
    | none => .text s
  | integer, .real x => narrow x
  | text, .integer n => .text (toString n)
  | text, .real x => .text x.significant
  | _, c => c

@[simp] theorem apply_integer_integer (n : Int) : apply integer (.integer n) = .integer n := rfl

@[simp] theorem apply_integer_null : apply integer .null = .null := rfl

@[simp] theorem apply_text_text (s : String) : apply text (.text s) = .text s := rfl

@[simp] theorem apply_blob (c : Cell) : apply blob c = c := by cases c <;> rfl

end Affinity

end RevisionLog
