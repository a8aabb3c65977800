import RevisionLog.Cell

/-!
# Rows

One row of the log's table as it is stored, and a row before it is.

* `Row` — an id and eight columns, whatever they hold.
* `Row.isGap`, `Row.isTombstone`, `Row.isLive` — the conditions by which rows are selected.
* `Draft` — the cells that a new row is to be made of.
-/

namespace RevisionLog

/-- A stored row. -/
structure Row where
  /-- the revision at which the row was written -/
  id : Int
  name : Cell
  /-- the row begins a life of its name -/
  created : Cell
  /-- the row ends one -/
  deleted : Cell
  createRevision : Cell
  prevRevision : Cell
  lease : Cell
  value : Cell
  oldValue : Cell
  deriving DecidableEq, Repr, Inhabited

namespace Row

/-- The condition that a flag is set. -/
def flag (c : Cell) : Truth := Truth.not c.isZero

/-- The condition that a row is no placeholder. Placeholders alone are both created and deleted. -/
def notGap (r : Row) : Truth := Truth.not (Truth.and (flag r.created) (flag r.deleted))

/-- Whether selections of user rows pass over a row. -/
def isGap (r : Row) : Bool := !r.notGap.holds

/-- Whether a row is selected as one that deletes. -/
def isTombstone (r : Row) : Bool := (flag r.deleted).holds

/-- Whether a row is selected as one that does not delete. -/
def isLive (r : Row) : Bool := r.deleted.isZero.holds

/-- Whether a row has this name. -/
def isNamed (r : Row) (name : String) : Bool := r.name = .text name

/-- Whether two rows extend the same revision of the same name. A row without a previous revision
extends none. -/
def sameLink (r s : Row) : Bool :=
  ((r.prevRevision.equals s.prevRevision).and (r.name.equals s.name)).holds

end Row

/-- The cells of a row that is to be written. Without an id it gets the next one. -/
structure Draft where
  id : Cell := .null
  name : Cell
  created : Cell
  deleted : Cell
  createRevision : Cell
  prevRevision : Cell
  lease : Cell
  value : Cell := .null
  oldValue : Cell := .null
  deriving DecidableEq, Repr, Inhabited

namespace Draft

/-- The row that the columns make of a draft, under an id. -/
def toRow (d : Draft) (id : Int) : Row where
  id := id
  name := Affinity.text.apply d.name
  created := Affinity.integer.apply d.created
  deleted := Affinity.integer.apply d.deleted
  createRevision := Affinity.integer.apply d.createRevision
  prevRevision := Affinity.integer.apply d.prevRevision
  lease := Affinity.integer.apply d.lease
  value := Affinity.blob.apply d.value
  oldValue := Affinity.blob.apply d.oldValue

/-- The column without which a draft cannot be written, if it lacks one. -/
def missing? (d : Draft) : Option String :=
  if d.name = .null then some "name"
  else if d.createRevision = .null then some "create_revision"
  else none

/-- A row written by a user of the log. -/
def ofUser (name : String) (created deleted : Bool) (createRevision prevRevision lease : Int)
    (value oldValue : Octets) : Draft where
  name := .text name
  created := .ofBool created
  deleted := .ofBool deleted
  createRevision := .integer createRevision
  prevRevision := .integer prevRevision
  lease := .integer lease
  value := .blob value
  oldValue := .blob oldValue

/-- What the names of placeholders begin with. -/
def gapStart : String := "gap-"

/-- The placeholder that claims an id. It extends itself, which no row of a user does. -/
def placeholder (id : Int) : Draft where
  id := .integer id
  name := .text (gapStart ++ toString id)
  created := .integer 1
  deleted := .integer 1
  createRevision := .integer 0
  prevRevision := .integer id
  lease := .integer 0

end Draft

end RevisionLog
