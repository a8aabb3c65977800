import RevisionLog.Fault
import RevisionLog.Log.Row

/-!
# Entries

One historical state of a key, as callers see it, read from a row.

* `Entry` — the state of a key at a revision.
* `Row.entry` — reading a row. Columns are read in a fixed order, and the first one of a wrong class
  is told.
-/

namespace RevisionLog

/-- One historical state of a key. -/
structure Entry where
  /-- the revision at which it was written -/
  revision : Int
  name : String
  /-- the first state of a life of the key -/
  created : Bool
  /-- the end of a life of the key -/
  deleted : Bool
  /-- the revision of the first state of this life -/
  createRevision : Int
  /-- the revision that this state follows, zero for none -/
  prevRevision : Int
  lease : Int
  value : Octets
  /-- the payload that this state replaced -/
  oldValue : Octets
  deriving DecidableEq, Repr, Inhabited

/-- Whether an entry is a placeholder. No other row both begins and ends a life. -/
def Entry.isGap (e : Entry) : Bool := e.created && e.deleted

namespace Row

/-- The integer in a column of a result. -/
def readInt (index : Nat) (column : String) : Cell → Except Fault Int
  | .integer n => .ok n
  | c => .error (.wrongClass c.storage index column)

/-- The integer in a column of a result, zero for no value. -/
def readIntOrZero (index : Nat) (column : String) : Cell → Except Fault Int
  | .null => .ok 0
  | c => readInt index column c

/-- The text in a column of a result. -/
def readText (index : Nat) (column : String) : Cell → Except Fault String
  | .text s => .ok s
  | c => .error (.wrongClass c.storage index column)

/-- Reads a row. A row that begins a life carries the revision of the beginning itself. -/
def entry (r : Row) : Except Fault Entry := do
  let created := (← readIntOrZero 2 "created" r.created) ≠ 0
  let createRevision ← if created then .ok r.id else readInt 4 "create_revision" r.createRevision
  let name ← readText 1 "name" r.name
  let deleted := (← readIntOrZero 3 "deleted" r.deleted) ≠ 0
  let prevRevision ← readIntOrZero 5 "prev_revision" r.prevRevision
  let lease ← readIntOrZero 6 "lease" r.lease
  return {
    revision := r.id, name, created, deleted, createRevision, prevRevision, lease
    value := r.value.payload, oldValue := r.oldValue.payload }

end Row

end RevisionLog
