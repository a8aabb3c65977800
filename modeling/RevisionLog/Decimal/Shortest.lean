import RevisionLog.Decimal.Binary64

/-!
# Shortest decimals

The text of a number with the fewest digits that read back as the same number, always written
positionally. The choice is exact: a number stands for the interval of fractions nearer to it than
to its neighbours, ends included when its mantissa is even, and the first count of digits with a
decimal in that interval wins. Of two such decimals the nearer is taken, and of two equally near
ones the greater.

* `Shortest.digits` — the digits and their power of ten.
* `Binary64.shortest` — the text: no exponent, no point behind a whole number, `inf` for the
  infinity.
-/

namespace RevisionLog

namespace Shortest

/-- The least `p` with `num / den < 10 ^ p`, searched downwards from `p = high` in at most
`steps` steps. -/
def decimalOrder (num den : Nat) : (steps : Nat) → (high : Int) → Int
  | 0, high => high
  | steps + 1, high =>
    let below := high - 1
    let fits :=
      if 0 ≤ below then num < den * Nat.pow 10 below.toNat
      else num * Nat.pow 10 (-below).toNat < den
    if fits then decimalOrder num den steps below else high

/-- `num / den` in units of `10 ^ power`, as a fraction. -/
def inUnits (num den : Nat) (power : Int) : Nat × Nat :=
  if 0 ≤ power then (num, den * Nat.pow 10 power.toNat) else (num * Nat.pow 10 (-power).toNat, den)

/-- The best decimal of one grid: of the two neighbours of `4 * value` on the grid `10 ^ power`,
those in the interval `low` to `high`, and of these the nearer. All fractions share the denominator
`den`, and are four times the value so that the ends of the interval are whole. -/
def onGrid (value low high den : Nat) (closed : Bool) (power : Int) : Option Nat :=
  let (v, d) := inUnits value den power
  let (l, _) := inUnits low den power
  let (h, _) := inUnits high den power
  let unit := 4 * d
  let below := v / unit
  let above := below + 1
  let within (n : Nat) :=
    if closed then l ≤ n * unit && n * unit ≤ h else l < n * unit && n * unit < h
  match decide (0 < below) && within below, within above with
  | true, true => if v - below * unit < above * unit - v then some below else some above
  | true, false => some below
  | false, true => some above
  | false, false => none

/-- The first grid with a decimal in the interval, from one digit up to `count` digits. -/
def search (value low high den : Nat) (closed : Bool) (order : Int) :
    (count : Nat) → (tried : Nat) → Nat × Int
  | 0, tried => (value / (4 * den), order - tried)
  | count + 1, tried =>
    let power := order - (tried + 1)
    match onGrid value low high den closed power with
    | some n => (n, power)
    | none => search value low high den closed order count (tried + 1)

/-- Digits and power of ten of the shortest decimal for `mantissa * 2 ^ exponent`, for a mantissa
above zero. -/
def digits (mantissa : Nat) (exponent : Int) : Nat × Int :=
  let (scale, den) : Nat × Nat :=
    if 0 ≤ exponent then (Nat.pow 2 exponent.toNat, 1) else (1, Nat.pow 2 (-exponent).toNat)
  let value := 4 * mantissa * scale
  let high := (4 * mantissa + 2) * scale
  let narrow := mantissa = Binary64.mantissaLimit / 2 ∧ Binary64.leastExponent < exponent
  let low := (4 * mantissa - if narrow then 1 else 2) * scale
  let order := decimalOrder (mantissa * scale) den 640 310
  search value low high den (mantissa % 2 = 0) order 17 0

/-- `n * 10 ^ power` written without an exponent: zeros behind a whole number, or a point among or
before the digits. -/
def positional (n : Nat) (power : Int) : String :=
  let text := toString n
  if 0 ≤ power then text ++ String.ofList (List.replicate power.toNat '0')
  else
    let places := (-power).toNat
    let padded := String.ofList (List.replicate (places + 1 - text.length) '0') ++ text
    let cs := padded.toList
    String.ofList (cs.take (cs.length - places)) ++ "." ++
      String.ofList (cs.drop (cs.length - places))

/-- Drops the zeros at the end of a decimal's digits. -/
def trim (n : Nat) (power : Int) : (steps : Nat) → Nat × Int
  | 0 => (n, power)
  | steps + 1 => if n ≠ 0 ∧ n % 10 = 0 then trim (n / 10) (power + 1) steps else (n, power)

end Shortest

/-- The text of a number with the fewest digits that read back, never with an exponent. -/
def Binary64.shortest : Binary64 → String
  | infinite negative => (if negative then "-" else "") ++ "inf"
  | finite negative mantissa exponent =>
    let body :=
      if mantissa = 0 then "0"
      else
        let (n, power) := Shortest.digits mantissa exponent
        let (n, power) := Shortest.trim n power 20
        Shortest.positional n power
    (if negative then "-" else "") ++ body

end RevisionLog
