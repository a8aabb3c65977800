import RevisionLog.Fault
import RevisionLog.Misconfiguration

/-!
# Errors

The closed set of reasons for which an operation of a store fails, and how each is told.

* `Error.ofFault` — what a refusal by the tables means to a caller: a taken id or link is a lost
  race.
* `Error.message` — the words.
* `Error.isCancellation`, `Error.isInterruption` — the reasons that come from the caller's context.
-/

namespace RevisionLog

/-- The step of a migration in which it failed. -/
inductive MigrationStep
  | readVersion
  | findLegacy
  | countRows
  | readLegacy
  /-- copying a row of this key -/
  | copyKey (name : String)
  | rebuildIndices
  | recordVersion
  deriving DecidableEq, Repr

/-- The words for a step of a migration. -/
def MigrationStep.message : MigrationStep → String
  | readVersion => "read schema version"
  | findLegacy => "find key_value table"
  | countRows => "count log rows"
  | readLegacy => "read key_value"
  | copyKey name => "copy key " ++ Text.quote name
  | rebuildIndices => "rebuild indices"
  | recordVersion => "record schema version"

/-- Why an operation fails. -/
inductive Error
  | config (reason : Misconfiguration)
  /-- no connection could be opened at all -/
  | unopened
  /-- every attempt to create the tables failed, the last one for this reason -/
  | setup (attempts : Nat) (source : Error)
  /-- the key is live, or the revision it was expected at is not its live one -/
  | keyExists
  | migration (text : String)
  /-- a step of the migration failed -/
  | migrationStep (step : MigrationStep) (source : Error)
  | query (fault : Fault)
  /-- no connection became free in time -/
  | poolExhausted
  | compacted (requested watermark : Int)
  | futureRevision (requested current : Int)
  | cancelled
  | deadlineExceeded
  | io (text : String)
  | internal (text : String)
  /-- the work of the operation broke down -/
  | panicked
  deriving DecidableEq, Repr

namespace Error

/-- What a refusal by the tables means to a caller. -/
def ofFault : Fault → Error
  | .takenId _ => keyExists
  | .takenLink _ => keyExists
  | .interrupted => cancelled
  | fault => query fault

/-- The words for an error. The error of a broken pool or of a task that broke down has none of
its own. -/
def message : Error → String
  | config reason => "Configuration error: " ++ reason.message
  | unopened => "Configuration error: Failed to open database pool"
  | setup attempts source => "setup db failed after " ++ toString attempts ++ " attempts: " ++
      source.message
  | keyExists => "key exists"
  | migration text => "Migration error: " ++ text
  | migrationStep step source => "Migration error: " ++ step.message ++ ": " ++ source.message
  | query fault => "Query error: " ++ fault.message
  | poolExhausted => "Connection pool error: timed out waiting for connection"
  | compacted requested watermark =>
    "required revision " ++ toString requested ++ " has been compacted (compact revision " ++
      toString watermark ++ ")"
  | futureRevision requested current =>
    "required revision " ++ toString requested ++ " is a future revision (current revision " ++
      toString current ++ ")"
  | cancelled => "context canceled"
  | deadlineExceeded => "context deadline exceeded"
  | io text => "IO error: " ++ text
  | internal text => "Internal error: " ++ text
  | panicked => "Internal error: database task failed"

/-- Whether the words of an error are part of what a caller is told. -/
def isTold : Error → Bool
  | unopened => false
  | panicked => false
  | _ => true

/-- Whether an error is the cause of a finished context. -/
def isCancellation : Error → Bool
  | cancelled => true
  | deadlineExceeded => true
  | _ => false

/-- Whether an error is the end of a stopped statement or of a finished context. -/
def isInterruption : Error → Bool
  | query .interrupted => true
  | e => e.isCancellation

/-- Whether a write lost against another one. -/
def isKeyExists : Error → Bool
  | keyExists => true
  | _ => false

/-- Whether an error ends a watcher for good. -/
def isTerminal : Error → Bool
  | compacted _ _ => true
  | e => e.isCancellation

end Error

end RevisionLog
