import RevisionLog.Log
import RevisionLog.Log.Entry
import RevisionLog.Text.Pattern

/-!
# Questions to the log

The selections of rows that the operations of a store are made of.

* `Log.currentRevision`, `Log.compactedTo` — the highest revision ever given, and the watermark.
* `Log.atRevision?`, `Log.latest?`, `Log.byId?` — single rows.
* `Log.lastRows`, `Log.liveRows`, `Log.list`, `Log.count` — the last rows of all names under a
  pattern.
* `Log.after` — the rows above a revision.
* `Log.compact` — takes away the history up to a revision.
-/

namespace RevisionLog

namespace Log

/-! ## Revisions -/

/-- The name under which the current revision is read. -/
def currentColumn : String := Statements.greatestKnown logTable

/-- The highest revision ever given, zero if there was none. The highest row may be gone, so the
watermark counts too. A watermark that is no number is greater than every number, and then the
answer cannot be read. -/
def currentRevision (log : Log) : Except Fault Int :=
  let greatest := Cell.integer (log.greatest?.getD 0)
  let watermark :=
    match log.watermark with
    | none => .integer 0
    | some .null => .integer 0
    | some c => c
  Row.readIntOrZero 0 currentColumn (if greatest.order watermark = .lt then watermark else greatest)

/-- The watermark, zero if the log was never compacted. -/
def compactedTo (log : Log) : Except Fault Int :=
  match log.watermark with
  | none => .ok 0
  | some c => Row.readIntOrZero 0 "value" c

/-! ## Single rows -/

/-- The last row of a name at or below a revision. -/
def atRevision? (log : Log) (name : String) (revision : Int) : Option Row :=
  (log.rows.filter fun r => r.isNamed name && r.id ≤ revision && !r.isGap).getLast?

/-- The last row of a name. -/
def latest? (log : Log) (name : String) : Option Row :=
  (log.rows.filter fun r => r.isNamed name && !r.isGap).getLast?

/-- The row of an id, if it is of a name. -/
def byId? (log : Log) (id : Int) (name : String) : Option Row :=
  (log.row? id).filter (·.isNamed name)

/-! ## Rows under a pattern -/

/-- Of rows in order of ids, those that no later row of the same name follows. -/
def lastOfNames : List Row → List Row
  | [] => []
  | r :: rows => if rows.any (·.name = r.name) then lastOfNames rows else r :: lastOfNames rows

/-- The last row at or below a revision of every name that a pattern selects. -/
def lastRows (log : Log) (pattern : String) (revision : Int) : List Row :=
  lastOfNames (log.rows.filter fun r =>
    r.id ≤ revision && !r.isGap && Pattern.selectsRead pattern.toList r.name.characters)

/-- The last rows that do not delete. -/
def liveRows (log : Log) (pattern : String) (revision : Int) : List Row :=
  (log.lastRows pattern revision).filter Row.isLive

/-- Whether a row is matched against a pattern. Over the index of names every row is, whatever its
id; without it only the rows at or below the revision are looked at. -/
def isMatched (log : Log) (revision : Int) (r : Row) : Bool :=
  log.indexing ≠ .unindexed || r.id ≤ revision

/-- Refuses a pattern that is too long, if there is a row to match it against. -/
def checkPattern (log : Log) (pattern : String) (revision : Int) : Except Fault Unit :=
  if Pattern.sizeLimit < pattern.utf8ByteSize ∧
      log.rows.any (log.isMatched revision) then .error .longPattern
  else .ok ()

/-- Rows in order of their names. -/
def byName (rows : List Row) : List Row := rows.mergeSort fun r s => r.name.order s.name ≠ .gt

/-- At most so many rows; zero is no limit. -/
def limited (limit : Nat) (rows : List Row) : List Row :=
  if limit = 0 then rows else rows.take limit

/-- The live entries under a pattern at a revision, in order of names. A limit beyond the greatest
revision is no number to the engine. -/
def list (log : Log) (pattern : String) (limit : Nat) (revision : Int) :
    Except Fault (List Entry) := do
  if Revision.greatest < (limit : Int) then .error .mismatch
  log.checkPattern pattern revision
  (limited limit (byName (log.liveRows pattern revision))).mapM Row.entry

/-- How many live rows there are under a pattern at a revision. -/
def count (log : Log) (pattern : String) (revision : Int) : Except Fault Nat := do
  log.checkPattern pattern revision
  return (log.liveRows pattern revision).length

/-! ## Rows in order -/

/-- The first entries above a revision. A batch beyond the greatest revision is no limit. -/
def after (log : Log) (revision : Int) (batch : Nat) : Except Fault (List Entry) :=
  let rows := log.rows.filter (revision < ·.id)
  (if (batch : Int) ≤ Revision.greatest then rows.take batch else rows).mapM Row.entry

/-! ## Compaction -/

/-- Whether a row at or below a revision names another one as the revision it follows. -/
def isSuperseded (log : Log) (revision : Int) (r : Row) : Bool :=
  log.rows.any fun s =>
    s.id ≤ revision && (Row.flag s.prevRevision).holds &&
      ((Cell.integer r.id).equals s.prevRevision).holds

/-- Whether compaction to a revision takes a row away. -/
def isHistory (log : Log) (revision : Int) (r : Row) : Bool :=
  log.isSuperseded revision r || (r.id ≤ revision && r.isTombstone)

/-- The stored watermark raised to a revision. A higher one stays. -/
def raised (watermark : Option Cell) (revision : Int) : Cell :=
  match watermark with
  | none => .integer revision
  | some c => if c ≠ .null ∧ c.order (.integer revision) = .lt then .integer revision else c

/-- Takes away the history at or below a revision and raises the watermark. Also answers how many
rows are gone. -/
def compact (log : Log) (revision : Int) : Nat × Log :=
  let kept := log.retain fun r => !log.isHistory revision r
  (log.rows.length - kept.rows.length,
    { kept with watermark := some (raised log.watermark revision) })

end Log

end RevisionLog
