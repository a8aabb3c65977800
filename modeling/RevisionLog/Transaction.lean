import RevisionLog.Connection
import RevisionLog.Context

/-!
# Transactions

Every operation of a store is one transaction: a body that is run between a begin and a commit. It
works on a copy of the content, which replaces the content when it is committed and is thrown away
otherwise.

* `Transaction.Mode` — reads, writes to the log, changes of the layout; only the latter two can need
  the write lock.
* `Transaction.Looks` — what the caller's context says at each of the moments at which it is asked.
* `Transaction.conduct` — the outcome of a transaction of any body, and the content after it.
* `Transaction.run` — the same of some work; `Transaction.run_eq` is what becomes of its copy.
-/

namespace RevisionLog.Transaction

/-- What a transaction is for. -/
inductive Mode
  | read
  | write
  | schema
  deriving DecidableEq, Repr

/-- Whether a mode goes through the write lock. -/
def Mode.needsLock (serializeWrites : Bool) : Mode → Bool
  | read => false
  | write => serializeWrites
  | schema => true

/-- Whether a mode makes the engine lock the file for writing from the start. -/
def Mode.isWriting : Mode → Bool
  | read => false
  | _ => true

/-- What the context says at the moments at which it is asked. -/
structure Looks where
  /-- before anything is done -/
  start : Option Cause := none
  /-- while a connection or the lock is waited for, before either is given -/
  waiting : Option Cause := none
  /-- once both are had -/
  opening : Option Cause := none
  /-- after the work, before its changes are kept -/
  committing : Option Cause := none
  /-- when the outcome is told -/
  returning : Option Cause := none
  deriving DecidableEq, Repr, Inhabited

/-- The error of a finished context. -/
def stop : Option Cause → Except Error Unit
  | some cause => .error cause.toError
  | none => .ok ()

/-- The error that is told: an interruption is told as the cause of the context, where it has one,
and any other error as itself. -/
def told (returning : Option Cause) (e : Error) : Error :=
  match returning with
  | some cause => if e.isInterruption then cause.toError else e
  | none => e

variable {α : Type}

/-- What is done on a connection: what came of it, and the connection after it. -/
abbrev Body (α : Type) := Connection → Except Error α × Connection

/-- Work as the body of a transaction. -/
def body (work : Work α) : Body α := fun c =>
  let (outcome, db) := work.carryOut c.visible
  (outcome, c.put db)

/-- A transaction from its begin to its commit: what came of it, and what is stored then. Whatever
goes wrong on the way, it is given up. -/
def perform (committing : Option Cause) (commit : Except Error Unit) (body : Body α)
    (c : Connection) : Except Error α × Database :=
  match body c.begun with
  | (.error e, c) => (.error e, c.undone.stored)
  | (.ok a, c) =>
    match stop committing with
    | .error e => (.error e, c.undone.stored)
    | .ok _ =>
      match commit with
      | .error e => (.error e, c.undone.stored)
      | .ok _ =>
        match c.obey .commit with
        | .error fault => (.error (.ofFault fault), c.undone.stored)
        | .ok c => (.ok a, c.stored)

/-- Everything that has to go well before the body is begun, in its order. -/
def enter (looks : Looks) (entry begin : Except Error Unit) : Except Error Unit := do
  stop looks.waiting
  entry
  stop looks.opening
  begin

/-- A transaction on a content. `entry` tells whether a connection and the lock were had, `begin`
and `commit` whether the engine let it begin and end. -/
def conduct (looks : Looks) (entry begin commit : Except Error Unit) (body : Body α) (db : Database)
    (reversible : Bool := true) : Except Error α × Database :=
  match stop looks.start with
  | .error e => (.error e, db)
  | .ok _ =>
    match enter looks entry begin with
    | .error e => (.error (told looks.returning e), db)
    | .ok _ =>
      let (outcome, db) := perform looks.committing commit body { stored := db, reversible }
      (outcome.mapError (told looks.returning), db)

/-- A transaction of some work. -/
def run (looks : Looks) (entry begin commit : Except Error Unit) (work : Work α) (db : Database)
    (reversible : Bool := true) : Except Error α × Database :=
  conduct looks entry begin commit (body work) db reversible

/-- The working copy is kept where everything goes well. It is thrown away where something does not,
unless the engine can take nothing back. -/
theorem run_eq (looks : Looks) (entry begin commit : Except Error Unit) (work : Work α)
    (db : Database) (reversible : Bool) :
    run looks entry begin commit work db reversible =
      match stop looks.start with
      | .error e => (.error e, db)
      | .ok _ =>
        match enter looks entry begin with
        | .error e => (.error (told looks.returning e), db)
        | .ok _ =>
          match work.carryOut db with
          | (.error e, changed) =>
            (.error (told looks.returning e), if reversible then db else changed)
          | (.ok a, changed) =>
            match stop looks.committing with
            | .error e => (.error (told looks.returning e), if reversible then db else changed)
            | .ok _ =>
              match commit with
              | .error e => (.error (told looks.returning e), if reversible then db else changed)
              | .ok _ => (.ok a, changed) := by
  rw [run, conduct]
  rcases stop looks.start with e | _
  · rfl
  rcases enter looks entry begin with e | _
  · rfl
  simp only [perform, body, Connection.visible_begun]
  rcases work.carryOut db with ⟨e | a, changed⟩
  · rfl
  rcases stop looks.committing with e | _
  · rfl
  rcases commit with e | _ <;> rfl

end RevisionLog.Transaction
