import RevisionLog.Error
import RevisionLog.Log.Query

/-!
# The store

A revisioned map of keys to payloads on top of a log. Every write appends one row, whose id is its
revision; an update or a delete names the revision that it replaces, and of several writers that
name the same one a single one wins.

* `Store.create`, `Store.update`, `Store.delete` — writes.
* `Store.get`, `Store.list`, `Store.count` — reads at a revision, where zero stands for the current
  one.
* `Store.compact` — takes away history.
* `Store.since` — what a watcher reads.

All are functions of the log; what they run in is the concern of `Transaction`.
-/

namespace RevisionLog.Store

/-- An answer of the tables, with a refusal as an error of the store. -/
def ask {α : Type} (answer : Except Fault α) : Except Error α := answer.mapError Error.ofFault

/-- The entry of a row, where there is one. -/
def entryOf (row : Option Row) : Except Error (Option Entry) :=
  match row with
  | none => .ok none
  | some r => some <$> ask r.entry

/-! ## Writes -/

/-- Creates a key that is not live. A new life after a deletion follows the row that ended the
last one. -/
def create (log : Log) (name : String) (value : Octets) (lease : Int) :
    Except Error (Int × Log) := do
  let prevRevision ←
    match ← entryOf (log.latest? name) with
    | none => pure 0
    | some latest => if latest.deleted then pure latest.revision else throw .keyExists
  ask (log.insert (.ofUser name true false 0 prevRevision lease value []))

/-- The entry of a key at the revision that a writer names, unless it is a deletion. -/
def liveEntry (log : Log) (name : String) (expected : Int) : Except Error Entry := do
  match ← entryOf (log.byId? expected name) with
  | none => throw .keyExists
  | some prior => if prior.deleted then throw .keyExists else pure prior

/-- Replaces the payload of a key, if the named revision is still its live one. -/
def update (log : Log) (name : String) (value : Octets) (expected : Int) (lease : Int) :
    Except Error (Int × Log) := do
  let prior ← liveEntry log name expected
  ask (log.insert
    (.ofUser name false false prior.createRevision prior.revision lease value prior.value))

/-- Ends the life of a key, if the named revision is still its live one. -/
def delete (log : Log) (name : String) (expected : Int) : Except Error (Int × Log) := do
  let prior ← liveEntry log name expected
  ask (log.insert (.ofUser name false true prior.createRevision prior.revision 0 [] prior.value))

/-! ## Reads -/

def currentRevision (log : Log) : Except Error Int := ask log.currentRevision

def compactedTo (log : Log) : Except Error Int := ask log.compactedTo

/-- The revision that is read at: zero stands for the current one, and any other has to lie between
the watermark and the current revision. -/
def resolve (log : Log) (revision : Int) : Except Error Int := do
  let current ← currentRevision log
  if revision = 0 then return current
  if current < revision then throw (.futureRevision revision current)
  let watermark ← compactedTo log
  if revision < watermark then throw (.compacted revision watermark)
  return revision

/-- The live entry of a key at a revision. -/
def get (log : Log) (name : String) (revision : Int) : Except Error (Option Entry) := do
  let revision ← resolve log revision
  let entry ← entryOf (log.atRevision? name revision)
  return entry.filter fun e => !e.deleted

/-- The live entries at a revision of the keys that begin with a text, in order of keys. A limit of
zero is none. -/
def list (log : Log) (start : String) (limit : Nat) (revision : Int) :
    Except Error (List Entry) := do
  let revision ← resolve log revision
  ask (log.list (Pattern.ofPrefix start) limit revision)

/-- The current revision, and how many keys that begin with a text are live at a revision. -/
def count (log : Log) (start : String) (revision : Int) : Except Error (Int × Nat) := do
  let current ← currentRevision log
  let revision ← resolve log revision
  let n ← ask (log.count (Pattern.ofPrefix start) revision)
  return (current, n)

/-- The entries above a position, up to a batch. A position below the watermark may have
lost some. -/
def since (log : Log) (position : Int) (batch : Nat) : Except Error (List Entry) := do
  let watermark ← compactedTo log
  if position < watermark then throw (.compacted position watermark)
  ask (log.after position batch)

/-! ## Compaction -/

/-- Takes away the history at or below a revision and raises the watermark to it. Answers how many
rows are gone. A revision that is not above the watermark leaves everything as it is. -/
def compact (log : Log) (revision : Int) : Except Error (Nat × Log) := do
  let current ← currentRevision log
  if current < revision then throw (.futureRevision revision current)
  let watermark ← compactedTo log
  if revision ≤ watermark then return (0, log)
  return log.compact revision

/-- Claims an id with a placeholder. -/
def fill (log : Log) (id : Int) : Except Error Log := ask (log.fill id)

end RevisionLog.Store
