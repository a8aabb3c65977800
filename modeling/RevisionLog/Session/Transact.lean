import RevisionLog.Session.Clock

/-!
# Transactions of a session

A transaction of the open store, which may have to wait for what is held.

* `Session.gainAccess` — the way to a connection and the lock.
* `Session.begin` — whether the file lets it begin.
* `Session.transact` — the whole.
-/

namespace RevisionLog.Session

open Transaction

/-- What the transactions of a store share, less what is held. -/
def resources (store : OpenStore) : Run Resources := do
  let free : Resources := { connections := store.connections, lock := .make store.locks }
  match (← get).obstacle.map Obstacle.hold with
  | some .pool => return { free with connections := 0 }
  | some .lock => return { free with lock := (free.lock.tryAcquire none).2 }
  | _ => return free

/-- Waits for what is held. Answers whether it is worth trying again: not where the pool
stays empty. -/
def waitForTurn (context : Context) : Run Bool := do
  takeTurn
  match (← get).obstacle with
  | none => return true
  | some obstacle =>
    if (← causeOf context).isSome then return true
    match obstacle.until?, obstacle.hold with
    | some time, _ =>
      advanceTo (match context.deadline with
        | some deadline => min deadline time
        | none => time)
      return true
    | none, .pool => return false
    | none, _ =>
      letGo
      return true

/-- The way of a transaction to a connection and the lock, in at most so many moves. -/
def gainAccess (store : OpenStore) (context : Context) (needsLock : Bool) :
    (moves : Nat) → Admission.Stage → Run (Except Error Unit)
  | 0, _ => return .error .poolExhausted
  | moves + 1, stage => do
    match Admission.move needsLock (← causeOf context) (← resources store) stage with
    | some (_, .working _) => return .ok ()
    | some (_, .ended (some cause)) => return .error cause.toError
    | some (_, stage) => gainAccess store context needsLock moves stage
    | none => if ← waitForTurn context then gainAccess store context needsLock moves stage else
        return .error .poolExhausted

/-- Whether the file lets a transaction begin. Reading goes on beside a writer; writing waits for
the other writer, if the store waits at all. -/
def begin (store : OpenStore) (mode : Mode) : Run (Except Error Unit) := do
  let blocked : Run Bool := do
    match (← get).obstacle.map Obstacle.hold with
    | some (.file _) => return mode.isWriting && store.place = mainFile
    | _ => return false
  if !(← blocked) then return .ok ()
  else if store.busyTimeout = 0 then return .error (.query .locked)
  else
    takeTurn
    match (← get).obstacle.bind Obstacle.until? with
    | some time => advanceTo time
    | none => pure ()
    return if ← blocked then .error (.query .locked) else .ok ()

/-- A transaction. `prepare` makes its work from the content, once everything is had, and may tell
something of its own, which is answered also where the work fails. -/
def transactWith {α β : Type} (store : OpenStore) (context : Context) (mode : Mode)
    (prepare : Database → Run (β × Work α)) : Run (Except Error α × Option β) := do
  match ← causeOf context with
  | some cause => return (.error cause.toError, none)
  | none =>
    let entry ← gainAccess store context (mode.needsLock store.serializeWrites) 16 .starting
    let began ← if entry.isOk then begin store mode else pure (.ok ())
    if entry.isOk && began.isOk then
      let (told, work) ← prepare (← contentAt store.place)
      return (← conclude entry began work, some told)
    else return (← conclude entry began (throw .panicked), none)
where
  /-- What comes of the work, under what the context says by now. -/
  conclude (entry began : Except Error Unit) (work : Work α) : Run (Except Error α) := do
    let cause ← causeOf context
    let looks : Looks := { committing := cause, returning := cause }
    let (outcome, db) :=
      Transaction.run looks entry began (.ok ()) work (← contentAt store.place) store.reversible
    keep store.place db
    return outcome

/-- A transaction of a work that is known beforehand. -/
def transact {α : Type} (store : OpenStore) (context : Context) (mode : Mode) (work : Work α) :
    Run (Except Error α) := do
  return (← transactWith store context mode fun _ => pure ((), work)).1

end RevisionLog.Session
