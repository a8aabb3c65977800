import RevisionLog.Retry
import RevisionLog.Session.Transact

/-!
# Opening a store

From settings to an open store: the endpoint is read, the directory made, the pool built, the tables
created, and an older layout migrated. A failure leaves no store behind, but what was committed on
the way stays. A content in memory is taken for one, as it is in a pool of one connection.

* `Session.makeDirectory` — the directory of a file and all above it.
* `Session.buildPool` — the store before its tables are looked after.
* `Session.openStore` — the whole.
* `Session.startCompactor` — the compactor of the open store.
-/

namespace RevisionLog.Session

/-- Closes the store, with its watchers and its compactor. -/
def close : Run Unit := modify fun s => { s with store := none, watchers := [], compactor := none }

/-- Whether there is a file at a path. -/
def isFile (s : Session) (parts : List String) : Bool := s.contents.any (·.1 = .file parts)

/-- Whether a path leads through a directory that was made, or is one. -/
def isDirectory (s : Session) (parts : List String) : Bool :=
  parts.isPrefixOf (Location.parts root) || s.directories.any parts.isPrefixOf

/-- Makes the directory that a file is to lie in. -/
def makeDirectory (path : String) : Run (Except Misconfiguration Unit) := do
  let directory := Location.parent path
  if directory.isEmpty then return .ok ()
  else
    let parts := Location.parts directory
    let s ← get
    if isFile s parts then return .error (.noDirectory directory "File exists (os error 17)")
    else if (List.range parts.length).any fun n => isFile s (parts.take n) then
      return .error (.noDirectory directory "Not a directory (os error 20)")
    else
      set { s with directories := parts :: s.directories }
      return .ok ()

/-- The path that stands for a content in memory. -/
def memoryPath : String := ":memory:"

/-- Where a path leads to. A path of a file makes the file; one of a directory leads nowhere. -/
def reach? (path : String) : Run (Option Place) := do
  let s ← get
  if path = memoryPath then
    set { s with memories := s.memories + 1 }
    return some (.memory s.memories)
  else
    let parts := Location.parts path
    if isDirectory s parts then return none
    else
      let place := Place.file parts
      if !isFile s parts then keep place {}
      return some place

/-- The store that settings lead to, before its tables are looked after. -/
def buildPool (settings : Settings) (adjust : Endpoint.Options → Endpoint.Options) :
    Run (Except Error OpenStore) := do
  match Endpoint.parse settings.endpoint.toList with
  | .error reason => return .error (.config reason)
  | .ok options =>
    let options := adjust options
    match ← makeDirectory options.path with
    | .error reason => return .error (.config reason)
    | .ok _ =>
      if settings.connections = 0 then return .error (.config .noConnections)
      else if settings.connectionTimeout = 0 then return .error .panicked
      else
        match ← reach? options.path with
        | none => return .error .unopened
        | some place =>
          return .ok
            { place, busyTimeout := options.busyTimeout, connections := settings.connections
              serializeWrites := settings.serializeWrites, locks := options.lockWrites
              stamped := options.journal = .wal && options.path ≠ memoryPath
              reversible := options.journal ≠ .off || options.path ≠ memoryPath
              watch := settings.watch }

/-- A pause between attempts. -/
def pauseUnder (context : Context) (span : Nat) : Run (Except Error Unit) := do
  match ← rest context span with
  | .stopped cause => return .error cause.toError
  | _ => return .ok ()

/-- Creates the tables. A statement that is not complete creates none. -/
def createTables (complete : Bool) : Work Unit :=
  if complete then Work.createTables else throw (.query .incomplete)

/-- Opens a store, and answers what its migration did, if there was to be one. -/
def openStore (settings : Settings) (preparation : Preparation) (context : Context) :
    Run (Except Error (OpenStore × Option MigrationStatus)) := do
  let adjust (o : Endpoint.Options) : Endpoint.Options :=
    { o with lastInsertId := preparation.lastInsertId, lockWrites := preparation.lockWrites }
  match ← buildPool settings adjust with
  | .error e => return .error e
  | .ok store =>
    let created ←
      if preparation.createTables then
        Retry.run settings.setup
          (transact store context .schema (createTables preparation.complete))
          (pauseUnder context settings.setup.interval)
      else pure (.ok ())
    match created with
    | .error e => return .error e
    | .ok _ =>
      if preparation.migrate then
        match ← transact store context .schema (Migration.run preparation.countable) with
        | .error e => return .error e
        | .ok status => return .ok (store, some status)
      else return .ok (store, none)

/-- Starts the compactor of the open store, under a context that is derived from another one. Its
first run is one interval from now; without an interval it never runs. -/
def startCompactor (settings : CompactionSettings) (parent : Context) : Run Unit := do
  let context ← fresh parent.child
  modify fun s =>
    { s with
      compactor := some
        { settings, context := { context with deadline := none }
          next := if settings.interval = 0 then none else some (s.now + settings.interval) } }

end RevisionLog.Session
