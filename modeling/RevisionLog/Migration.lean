import RevisionLog.Database

/-!
# Migration

Bringing a file to the current layout, once. The rows of an older layout are replayed in order of
names and ids, so that the states of every key form a chain; then the indices are made anew and the
version is recorded.

* `Legacy.read` — the older rows in order, decoded.
* `Migration.copy` — their replay.
* `Migration.run` — the whole, as the work of one transaction.
-/

namespace RevisionLog

/-- A state of a key in the older layout. -/
structure LegacyEntry where
  name : String
  value : Octets
  deleted : Bool
  ttl : Int
  deriving DecidableEq, Repr, Inhabited

namespace Legacy

/-- Order of two texts without regard to the case of ASCII letters. What follows a NUL counts only
by its size. -/
def caselessText (s t : String) : Ordering :=
  let head (s : String) := ((s.toList.takeWhile (· ≠ '\x00')).map Char.toLower).map Char.toNat
  (Cell.orderBy (head s) (head t)).then (compare s.utf8ByteSize t.utf8ByteSize)

/-- Order of two texts without regard to blanks at their ends. -/
def trimmedText (s t : String) : Ordering :=
  let body (s : String) := (s.toList.reverse.dropWhile (· = ' ')).reverse.map Char.toNat
  Cell.orderBy (body s) (body t)

/-- Order of two names. Only texts are compared by the collation. -/
def orderNames (collation : Collation) (a b : Cell) : Ordering :=
  match collation, a, b with
  | .caseless, .text s, .text t => caselessText s t
  | .trimmed, .text s, .text t => trimmedText s t
  | _, a, b => a.order b

/-- Order of two rows by name, then by id. -/
def order (collation : Collation) (a b : LegacyRow) : Ordering :=
  (orderNames collation a.name b.name).then (compare a.id b.id)

/-- The rows in order of names and ids. -/
def sorted (legacy : Legacy) : List LegacyRow :=
  legacy.rows.mergeSort fun a b => order legacy.collation a b ≠ .gt

/-- Reads a row. -/
def decode (r : LegacyRow) : Except Fault LegacyEntry := do
  let name ← Row.readText 1 "name" r.name
  let deleted := (← Row.readIntOrZero 3 "del" r.deleted) ≠ 0
  let ttl ← Row.readIntOrZero 4 "ttl" r.ttl
  return { name, value := r.value.payload, deleted, ttl }

/-- Reads all rows in order. A table that lacks a column cannot be read at all. -/
def read (legacy : Legacy) : Except Fault (List LegacyEntry) :=
  match LegacyColumn.all.find? (· ∈ legacy.lacking) with
  | some column => .error (.noColumn column.label Statements.legacyRowsText column.offset)
  | none => legacy.sorted.mapM decode

end Legacy

/-- What a migration did. -/
inductive MigrationStatus
  /-- the layout was the current one -/
  | upToDate
  /-- there was nothing to copy -/
  | initialized
  /-- so many rows were copied -/
  | migrated (rows : Nat)
  deriving DecidableEq, Repr

namespace Migration

/-- The version of the current layout. -/
def version : Int := 1

/-- The state of the key that is being replayed. -/
structure Chain where
  name : String
  /-- the revision of its last row -/
  last : Int
  createRevision : Int
  value : Octets
  deleted : Bool
  deriving DecidableEq, Repr, Inhabited

/-- The chain of a key, if it is the one being replayed. -/
def Chain.ofName? (chain : Option Chain) (name : String) : Option Chain :=
  chain.filter (·.name = name)

/-- The row that replays a state, given the chain of its key: an update or a deletion of a live key,
or a creation of one that is not. The deletion of a key that is not live leaves no row. -/
def draft? (chain : Option Chain) (e : LegacyEntry) : Option Draft :=
  let lease := max e.ttl 0
  match chain with
  | some c =>
    if !c.deleted then
      some (.ofUser e.name false e.deleted c.createRevision c.last lease
        (if e.deleted then [] else e.value) c.value)
    else if e.deleted then none
    else some (.ofUser e.name true false 0 c.last lease e.value [])
  | none => if e.deleted then none else some (.ofUser e.name true false 0 0 lease e.value [])

/-- The chain after the row of a state was written under an id. -/
def extend (chain : Option Chain) (e : LegacyEntry) (id : Int) : Chain :=
  let createRevision :=
    match chain with
    | some c => if c.deleted then id else c.createRevision
    | none => id
  { name := e.name, last := id, createRevision, value := if e.deleted then [] else e.value,
    deleted := e.deleted }

/-- Replays states in order, and answers how many rows were written. `chain` is the one of the last
key that got a row. -/
def copy (log : Log) (chain : Option Chain) : List LegacyEntry → Except Error (Nat × Log)
  | [] => .ok (0, log)
  | e :: rest =>
    let own := Chain.ofName? chain e.name
    match draft? own e with
    | none => copy log chain rest
    | some d =>
      match Store.ask (log.insert d) with
      | .error cause =>
        .error (if cause.isCancellation then cause else .migrationStep (.copyKey e.name) cause)
      | .ok (id, log) => (copy log (some (extend own e id)) rest).map fun (n, log) => (n + 1, log)

/-- An answer of the tables in a step of the migration. -/
def inStep {α : Type} (step : MigrationStep) (answer : Except Fault α) : Except Error α :=
  answer.mapError fun fault =>
    let cause := Error.ofFault fault
    if cause.isCancellation then cause else .migrationStep step cause

/-- Copies the older rows into an empty log. -/
def copyLegacy (legacy : Legacy) : Work MigrationStatus := do
  match (← get).log with
  | none => throw (.migrationStep .countRows (.query (.noTable logTable)))
  | some log =>
    if log.rows.isEmpty then
      let entries ← liftExcept (inStep .readLegacy legacy.read)
      let (n, log) ← liftExcept (copy log none entries)
      modify fun db => { db with log := some log }
      return .migrated n
    else return .initialized
where
  /-- An answer as work that changes nothing. -/
  liftExcept {α : Type} : Except Error α → Work α
    | .ok a => pure a
    | .error e => throw e

/-- Makes the indices anew. -/
def rebuildIndices : Work Unit := do
  match (← get).log with
  | none => throw (.migrationStep .rebuildIndices (.query (.noTable ("main." ++ logTable))))
  | some log =>
    match inStep .rebuildIndices ({ log with indexing := .unindexed }.reindex .linkFirst) with
    | .error e => throw e
    | .ok log => modify fun db => { db with log := some log }

/-- Brings the content to the current layout. `countable` is false where the question for an older
table has no answer. -/
def run (countable : Bool := true) : Work MigrationStatus := do
  let db ← get
  if db.version = version then return .upToDate
  if !countable then
      throw (.migration ("cannot determine whether the " ++ legacyTable ++ " table exists"))
  let status ←
    match db.legacy with
    | none => pure .initialized
    | some legacy => copyLegacy legacy
  rebuildIndices
  modify fun db => { db with version := version }
  return status

end Migration

end RevisionLog
