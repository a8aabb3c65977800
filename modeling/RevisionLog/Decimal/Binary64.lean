/-!
# Binary64 numbers

The numbers of a real column, kept exact: a sign, a whole mantissa and a power of two, or an
infinity. A value that is no number at all is not among them, since a column stores it as NULL.

* `Binary64.ofRatio` — the nearest number to a fraction, a tie going to the even mantissa.
* `Binary64.ratio?` — the exact fraction a finite number stands for.
* `Binary64.compare` — order by value, so both zeros are equal.
* `Binary64.toInt?` — the whole number it is, if it is one.
-/

namespace RevisionLog

/-- A number in 64-bit binary form, of the value `± mantissa * 2 ^ exponent`. The smallest exponent
that keeps the mantissa below `2 ^ 53` is used, and never one below `-1074`. -/
inductive Binary64
  | finite (negative : Bool) (mantissa : Nat) (exponent : Int)
  | infinite (negative : Bool)
  deriving DecidableEq, Repr

namespace Binary64

/-- The least exponent of a finite number. -/
def leastExponent : Int := -1074

/-- The greatest exponent of a finite number. -/
def greatestExponent : Int := 971

/-- One more than the greatest mantissa. -/
def mantissaLimit : Nat := Nat.pow 2 53

def zero (negative : Bool) : Binary64 := finite negative 0 leastExponent

instance : Inhabited Binary64 := ⟨zero false⟩

/-- The whole number nearest to `num / den`, a half going to the even neighbour. -/
def roundHalfEven (num den : Nat) : Nat :=
  let q := num / den
  let r := num % den
  if 2 * r < den then q
  else if den < 2 * r then q + 1
  else if q % 2 = 0 then q else q + 1

/-- The power of two at or below `num / den`, for `num` and `den` above zero. -/
def binaryOrder (num den : Nat) : Int :=
  let guess : Int := num.log2 - den.log2
  let reached :=
    if 0 ≤ guess then den * Nat.pow 2 guess.toNat ≤ num else den ≤ num * Nat.pow 2 (-guess).toNat
  if reached then guess else guess - 1

/-- The number nearest to `± num / den`. Beyond the greatest finite number lies the infinity. -/
def ofRatio (negative : Bool) (num den : Nat) : Binary64 :=
  if num = 0 then zero negative
  else
    let exponent := max leastExponent (binaryOrder num den - 52)
    let mantissa :=
      if 0 ≤ exponent then roundHalfEven num (den * Nat.pow 2 exponent.toNat)
      else roundHalfEven (num * Nat.pow 2 (-exponent).toNat) den
    let carried := mantissa = mantissaLimit
    let exponent := if carried then exponent + 1 else exponent
    let mantissa := if carried then mantissa / 2 else mantissa
    if greatestExponent < exponent then infinite negative else finite negative mantissa exponent

/-- The number nearest to `± digits * 10 ^ power`. Powers far outside the finite range are settled
by the count of digits alone. -/
def ofDecimal (negative : Bool) (digits : Nat) (power : Int) : Binary64 :=
  if digits = 0 then zero negative
  else
    let size : Int := (toString digits).length + power
    if 310 < size then infinite negative
    else if size < -330 then zero negative
    else if 0 ≤ power then ofRatio negative (digits * Nat.pow 10 power.toNat) 1
    else ofRatio negative digits (Nat.pow 10 (-power).toNat)

/-- The exact value of a finite number, as a numerator over a denominator above zero. -/
def ratio? : Binary64 → Option (Int × Nat)
  | infinite _ => none
  | finite negative mantissa exponent =>
    let sign : Int := if negative then -1 else 1
    if 0 ≤ exponent then some (sign * mantissa * Nat.pow 2 exponent.toNat, 1)
    else some (sign * mantissa, Nat.pow 2 (-exponent).toNat)

/-- Order of two numbers by value. -/
def compare (x y : Binary64) : Ordering :=
  match x.ratio?, y.ratio? with
  | some (a, b), some (c, d) => Ord.compare (a * d) (c * b)
  | some _, none => if y = infinite true then .gt else .lt
  | none, some _ => if x = infinite true then .lt else .gt
  | none, none =>
    if x = y then .eq else if x = infinite true then .lt else .gt

/-- Order of a number and a whole number by value, with no rounding. -/
def compareInt (x : Binary64) (n : Int) : Ordering :=
  match x.ratio? with
  | some (a, b) => Ord.compare a (n * b)
  | none => if x = infinite true then .lt else .gt

/-- The whole number of this value, if it is whole. -/
def toInt? (x : Binary64) : Option Int := do
  let (a, b) ← x.ratio?
  if a % b = 0 then some (a / b) else none

end Binary64

end RevisionLog
