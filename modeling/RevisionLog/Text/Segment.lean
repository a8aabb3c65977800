/-!
# Cutting text

* `Text.cutAt?` — the parts before and behind the first place where a mark stands.
* `Text.segments` — all parts between single marks, empty ones included.
* `Text.decimal?` — a run of digits, with an optional plus, as a number within a limit.
-/

namespace RevisionLog.Text

/-- The parts before and behind the first `mark`. -/
def cutAt? (mark : List Char) : List Char → Option (List Char × List Char)
  | [] => if mark.isEmpty then some ([], []) else none
  | c :: cs =>
    if mark.isPrefixOf (c :: cs) then some ([], (c :: cs).drop mark.length)
    else (cutAt? mark cs).map fun (before, behind) => (c :: before, behind)

/-- The parts between the marks. There is always one more part than marks. -/
def segments (mark : Char) : List Char → List (List Char)
  | [] => [[]]
  | c :: cs =>
    if c = mark then [] :: segments mark cs
    else
      match segments mark cs with
      | [] => [[c]]
      | part :: parts => (c :: part) :: parts

/-- What follows a beginning, or the whole text where it begins otherwise. -/
def dropStart (start cs : List Char) : List Char :=
  if start.isPrefixOf cs then cs.drop start.length else cs

/-- The value of a run of decimal digits. -/
def digitsValue (cs : List Char) : Nat :=
  cs.foldl (fun n c => 10 * n + (c.toNat - '0'.toNat)) 0

/-- The number a run of digits stands for, at most `limit`. One plus sign may stand in front. -/
def decimal? (limit : Nat) (cs : List Char) : Option Nat :=
  let ds := match cs with
    | '+' :: ds => ds
    | ds => ds
  if ds.isEmpty || !ds.all Char.isDigit then none
  else
    let n := digitsValue ds
    if n ≤ limit then some n else none

end RevisionLog.Text
