/-!
# Revisions

A revision is a position in the log: the id of the row written there. It is a signed 64-bit number,
and sums and differences of revisions are answered only when they are one again.

* `Revision.InRange` — the whole numbers that are revisions.
* `Revision.add?`, `Revision.sub?` — exact sums and differences, absent outside the range.
-/

namespace RevisionLog

namespace Revision

/-- The greatest revision there can be. -/
def greatest : Int := 9223372036854775807

/-- The least number a revision column can hold. -/
def least : Int := -9223372036854775808

/-- A whole number that fits the signed 64-bit range. -/
def InRange (r : Int) : Prop := least ≤ r ∧ r ≤ greatest

instance (r : Int) : Decidable (InRange r) :=
  inferInstanceAs (Decidable (_ ∧ _))

/-- The number itself, if it fits the range. -/
def fit? (r : Int) : Option Int := if InRange r then some r else none

/-- The exact sum, if it fits. -/
def add? (a b : Int) : Option Int := fit? (a + b)

/-- The exact difference, if it fits. -/
def sub? (a b : Int) : Option Int := fit? (a - b)

theorem fit?_eq_some {a r : Int} : fit? a = some r ↔ InRange a ∧ r = a := by
  unfold fit?
  split
  · next h => simp [h, eq_comm]
  · next h => simp [h]

theorem add?_eq_some {a b r : Int} : add? a b = some r ↔ InRange (a + b) ∧ r = a + b :=
  fit?_eq_some

theorem sub?_eq_some {a b r : Int} : sub? a b = some r ↔ InRange (a - b) ∧ r = a - b :=
  fit?_eq_some

end Revision

end RevisionLog
