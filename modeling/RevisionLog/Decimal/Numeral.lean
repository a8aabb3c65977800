import RevisionLog.Decimal.Binary64
import RevisionLog.Text.Segment

/-!
# Decimal numerals

Reading a number from text: a sign, digits with an optional point, and an optional power of ten.

* `Numeral.read?` — takes a whole text apart; anything left over refuses it.
* `Numeral.toBinary64`, `Numeral.toInt?` — what it stands for.
* `readReal?` — also the words for the infinities and for a value that is no number.
-/

namespace RevisionLog

/-- A decimal numeral: the value `± digits * 10 ^ power`. -/
structure Numeral where
  /-- a minus sign stands in front -/
  negative : Bool
  /-- all digits, before and after the point, as one whole number -/
  digits : Nat
  /-- power of ten -/
  power : Int
  /-- neither a point nor a power was written -/
  whole : Bool
  deriving DecidableEq, Repr

namespace Numeral

/-- A leading sign, and what follows it. -/
def takeSign : List Char → Bool × List Char
  | '-' :: cs => (true, cs)
  | '+' :: cs => (false, cs)
  | cs => (false, cs)

/-- A power of ten that takes up the whole rest: nothing, or `e` with an optional sign and
digits. -/
def readPower? : List Char → Option (Int × Bool)
  | [] => some (0, false)
  | c :: cs =>
    if c = 'e' || c = 'E' then
      let (negative, ds) := takeSign cs
      if ds.isEmpty || !ds.all Char.isDigit then none
      else some (if negative then -(Text.digitsValue ds : Int) else Text.digitsValue ds, true)
    else none

/-- Reads a numeral that takes up the whole text. There is a digit before the point or after it. -/
def read? (cs : List Char) : Option Numeral := do
  let (negative, cs) := takeSign cs
  let (before, cs) := cs.span Char.isDigit
  let (point, after, cs) :=
    match cs with
    | '.' :: ds => (true, (ds.span Char.isDigit).1, (ds.span Char.isDigit).2)
    | cs => (false, [], cs)
  if before.isEmpty && after.isEmpty then none
  else
    let (power, scaled) ← readPower? cs
    some
      { negative, digits := Text.digitsValue (before ++ after), power := power - after.length,
        whole := !point && !scaled }

/-- The nearest binary number. -/
def toBinary64 (n : Numeral) : Binary64 := Binary64.ofDecimal n.negative n.digits n.power

/-- The whole number a numeral without point and power stands for. -/
def toInt? (n : Numeral) : Option Int :=
  if n.whole then some (if n.negative then -(n.digits : Int) else n.digits) else none

end Numeral

/-- Reads a real number: a numeral, or in any letter case `inf` or `infinity` with an optional sign,
or `nan`, which stands for no number. The outer `none` refuses the text. -/
def readReal? (text : String) : Option (Option Binary64) :=
  let (negative, cs) := Numeral.takeSign text.toList
  let word := cs.map Char.toLower
  if word = "inf".toList || word = "infinity".toList then some (some (.infinite negative))
  else if word = "nan".toList then some none
  else (Numeral.read? text.toList).map (some ·.toBinary64)

end RevisionLog
