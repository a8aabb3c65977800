import RevisionLog.Decimal.Shortest

/-!
# Fifteen significant digits

The text a number takes in a text column: fifteen significant digits, a half rounded away from zero,
zeros at the end dropped but for one behind the point, and an exponent of at least two digits for
numbers below `0.0001` or from `10 ^ 15` on.
-/

namespace RevisionLog

namespace Significant

/-- How many digits are kept. -/
def places : Nat := 15

/-- The kept digits, the first above zero, and the power of ten of the first one. -/
def digits (mantissa : Nat) (exponent : Int) : Nat × Int :=
  let (num, den) : Nat × Nat :=
    if 0 ≤ exponent then (mantissa * Nat.pow 2 exponent.toNat, 1)
        else (mantissa, Nat.pow 2 (-exponent).toNat)
  let order := Shortest.decimalOrder num den 640 310
  let (n, d) := Shortest.inUnits num den (order - places)
  let rounded := (2 * n + d) / (2 * d)
  if rounded = Nat.pow 10 places then (rounded / 10, order) else (rounded, order - 1)

/-- Digits without the zeros at their end. -/
def dropZeros (cs : List Char) : List Char := (cs.reverse.dropWhile (· = '0')).reverse

/-- The digits behind the point: at least one. -/
def fraction (cs : List Char) : String :=
  let kept := dropZeros cs
  if kept.isEmpty then "0" else String.ofList kept

/-- A sign and at least two digits. -/
def power (p : Int) : String :=
  let size := toString p.natAbs
  (if p < 0 then "-" else "+") ++ (if size.length < 2 then "0" ++ size else size)

/-- The text of a number above zero from its digits and the power of ten of the first one. -/
def layout (n : Nat) (first : Int) : String :=
  let cs := (toString n).toList
  if first < -4 ∨ (places : Int) ≤ first then
    String.ofList (cs.take 1) ++ "." ++ fraction (cs.drop 1) ++ "e" ++ power first
  else if first < 0 then
    "0." ++ fraction (List.replicate (-first - 1).toNat '0' ++ cs)
  else
    String.ofList (cs.take (first.toNat + 1)) ++ "." ++ fraction (cs.drop (first.toNat + 1))

end Significant

/-- The text of a number in a text column. Zero has no sign. -/
def Binary64.significant : Binary64 → String
  | infinite negative => (if negative then "-" else "") ++ "Inf"
  | finite negative mantissa exponent =>
    if mantissa = 0 then "0.0"
    else
      let (n, first) := Significant.digits mantissa exponent
      (if negative then "-" else "") ++ Significant.layout n first

end RevisionLog
