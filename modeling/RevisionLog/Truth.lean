/-!
# Three-valued truth

A condition on a cell without a value is neither true nor false. `none` stands for that third value.

* `Truth.not`, `Truth.and` — as in two-valued logic, with `none` where the answer hangs on an
  unknown side.
* `Truth.holds` — a row is kept only by a condition that is true.
-/

namespace RevisionLog

/-- True, false, or unknown. -/
abbrev Truth := Option Bool

namespace Truth

protected def not : Truth → Truth := Option.map Bool.not

protected def and : Truth → Truth → Truth
  | some false, _ => some false
  | _, some false => some false
  | some true, t => t
  | none, _ => none

/-- Whether a condition keeps a row. -/
def holds (t : Truth) : Bool := t = some true

@[simp] theorem not_some (b : Bool) : Truth.not (some b) = some (!b) := rfl

@[simp] theorem not_none : Truth.not none = none := rfl

@[simp] theorem and_some (a b : Bool) : Truth.and (some a) (some b) = some (a && b) := by
  cases a <;> cases b <;> rfl

@[simp] theorem not_not (t : Truth) : Truth.not (Truth.not t) = t := by
  rcases t with _ | _ | _ <;> rfl

@[simp] theorem holds_some (b : Bool) : holds (some b) = b := by cases b <;> rfl

@[simp] theorem holds_none : holds none = false := rfl

/-- Two conditions hold together if each of them holds. -/
theorem holds_and (s t : Truth) : (Truth.and s t).holds = (s.holds && t.holds) := by
  rcases s with _ | _ | _ <;> rcases t with _ | _ | _ <;> rfl

/-- A conjunction is known to be false where one of its sides is. -/
theorem holds_not_and (s t : Truth) :
    (Truth.not (Truth.and s t)).holds = ((Truth.not s).holds || (Truth.not t).holds) := by
  rcases s with _ | _ | _ <;> rcases t with _ | _ | _ <;> rfl

end Truth

end RevisionLog
