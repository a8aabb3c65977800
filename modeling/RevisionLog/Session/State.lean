import RevisionLog.Admission
import RevisionLog.Compaction
import RevisionLog.Endpoint
import RevisionLog.Location
import RevisionLog.Session.Command
import RevisionLog.Watcher

/-!
# The state of a session

A session has a clock, files, contexts under names, and at most one open store with its watchers and
its compactor.

* `Session` — the state.
* `Session.Run` — what is done in a session.
* The ways to reach contexts and the content of files.
-/

namespace RevisionLog

namespace Session

/-- Where the content of a store is kept. -/
inductive Place
  | file (parts : List String)
  /-- in memory, apart from all others -/
  | memory (serial : Nat)
  deriving DecidableEq, Repr, Inhabited

/-- A store that is open. -/
structure OpenStore where
  place : Place
  /-- milliseconds that a statement waits for another connection -/
  busyTimeout : Nat
  connections : Nat
  serializeWrites : Bool
  /-- writes need the lock -/
  locks : Bool
  /-- opening alone gives the file its first page -/
  stamped : Bool
  /-- the engine can take back what a transaction did -/
  reversible : Bool
  watch : WatchSettings
  deriving DecidableEq, Repr, Inhabited

/-- A watcher and what it runs under. -/
structure OpenWatcher where
  watcher : Watcher
  context : Context
  deriving DecidableEq, Repr, Inhabited

/-- A compactor that runs on its own. -/
structure Compactor where
  settings : CompactionSettings
  context : Context
  /-- the time of its next run; there is none once it broke down -/
  next : Option Nat
  deriving DecidableEq, Repr, Inhabited

/-- Something that is held while an action runs. -/
structure Obstacle where
  hold : Hold
  /-- what still is to happen once the action waits -/
  turn : Turn
  /-- the time at which it is let go -/
  until? : Option Nat := none

end Session

/-- The state of a session. -/
structure Session where
  /-- milliseconds since the beginning -/
  now : Nat := 0
  tokens : Tokens := {}
  contexts : List (String × Context) := []
  contents : List (Session.Place × Database) := []
  /-- directories that were made -/
  directories : List (List String) := []
  /-- how many contents were kept in memory so far -/
  memories : Nat := 0
  store : Option Session.OpenStore := none
  watchers : List (String × Session.OpenWatcher) := []
  compactor : Option Session.Compactor := none
  obstacle : Option Session.Obstacle := none

namespace Session

/-- What is done in a session. -/
abbrev Run := StateM Session

/-- The path of the directory of a session. -/
def root : String := "$DIR"

/-- The file that changes behind a store's back are made to. -/
def mainFile : Place := .file (Location.parts (root ++ "/state.db"))

/-! ## Contexts -/

/-- Makes a context. -/
def fresh (make : Tokens → Context × Tokens) : Run Context :=
  modifyGet fun s =>
    let (context, tokens) := make s.tokens
    (context, { s with tokens })

/-- The context of a name. -/
def named? (name : String) : Run (Option Context) := return (← get).contexts.lookup name

/-- The context that an action runs under: the one of a name, or a fresh one. -/
def contextOf (name : Option String) : Run Context := do
  match name.bind ((← get).contexts.lookup ·) with
  | some context => return context
  | none => fresh Context.background

/-- Why a context is finished by now, if it is. -/
def causeOf (context : Context) : Run (Option Cause) :=
  return context.cause? (← get).tokens (← get).now

def cancel (context : Context) : Run Unit :=
  modify fun s => { s with tokens := context.cancel s.tokens }

/-! ## Contents -/

/-- The content kept at a place. -/
def contentAt (place : Place) : Run Database := return ((← get).contents.lookup place).getD {}

/-- Replaces the content kept at a place. -/
def keep (place : Place) (db : Database) : Run Unit :=
  modify fun s => { s with contents := (place, db) :: s.contents.filter (·.1 ≠ place) }

/-- Puts an element in place of those of its name. -/
def put {α : Type} (name : String) (a : α) (all : List (String × α)) : List (String × α) :=
  (name, a) :: all.filter (·.1 ≠ name)

end Session

end RevisionLog
