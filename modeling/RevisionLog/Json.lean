import RevisionLog.Decimal.Numeral

/-!
# Structured values

The values of the notation that settings and requests are written in. A text may name half of a
surrogate pair, and then it is no text at all; such a text is kept as `none`, since it does no harm
where it is skipped.

* `Json` — a value.
* `Json.lookup`, `Json.count` — the members of an object by name.
* `Json.toInt?` — a number written as an integer.
-/

namespace RevisionLog

/-- A structured value. Members of an object keep their order and may repeat a name. -/
inductive Json
  | null
  | bool (b : Bool)
  | number (n : Numeral)
  | string (s : Option String)
  | array (items : List Json)
  | object (members : List (Option String × Json))
  deriving Inhabited

namespace Json

/-- A whole number as a value. -/
def ofInt (n : Int) : Json := number ⟨n < 0, n.natAbs, 0, true⟩

/-- A text as a value. -/
def ofString (s : String) : Json := string (some s)

/-- An object from its members. -/
def ofMembers (members : List (String × Json)) : Json :=
  object (members.map fun (name, value) => (some name, value))

/-- The members of an object. -/
def members : Json → List (Option String × Json)
  | object members => members
  | _ => []

/-- The value of the first member of a name. -/
def lookup (name : String) (j : Json) : Option Json :=
  (j.members.find? fun member => member.1 = some name).map (·.2)

/-- The integer a number was written as. A point or a power of ten makes a number none, and so does
a minus sign before a zero. -/
def toInt? : Json → Option Int
  | number n => if n.negative ∧ n.digits = 0 then none else n.toInt?
  | _ => none

def toBool? : Json → Option Bool
  | bool b => some b
  | _ => none

def toString? : Json → Option String
  | string s => s
  | _ => none

def toArray? : Json → Option (List Json)
  | array items => some items
  | _ => none

end Json

end RevisionLog
