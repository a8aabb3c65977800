import RevisionLog.Session.State

/-!
# The clock of a session

Time passes only where an action waits. While it passes, the compactor runs at its times, and what
is held for a time is let go.

* `Session.letGo` — ends what is held; the rows of a held file are then written.
* `Session.advanceTo` — lets time pass.
* `Session.takeTurn` — what is to happen once the action waits.
* `Session.rest` — a pause under a context.
-/

namespace RevisionLog.Session

/-- A transaction on the content at a place that nothing has to be waited for. -/
def attempt {α : Type} (place : Place) (context : Context) (work : Work α) :
    Run (Except Error α) := do
  let cause ← causeOf context
  let looks : Transaction.Looks :=
    { start := cause, waiting := cause, opening := cause, committing := cause, returning := cause }
  let (outcome, db) := Transaction.run looks (.ok ()) (.ok ()) (.ok ()) work (← contentAt place)
  keep place db
  return outcome

/-! ## What is held -/

/-- Writes rows behind the store's back, up to the first that is refused. -/
def writeRows (db : Database) : List Draft → Except Fault Database
  | [] => .ok db
  | d :: ds =>
    match db.log with
    | none => .error (.noTable logTable)
    | some log =>
      match log.insert d with
      | .error fault => .error fault
      | .ok (_, log) => writeRows { db with log := some log } ds

/-- Ends what is held. -/
def letGo : Run Unit := do
  match (← get).obstacle with
  | none => pure ()
  | some obstacle =>
    modify fun s => { s with obstacle := none }
    match obstacle.hold with
    | .file rows =>
      match writeRows (← contentAt mainFile) rows with
      | .ok db => keep mainFile db
      | .error _ => pure ()
    | _ => pure ()

/-! ## The passing of time -/

/-- How the compactor reaches the log. -/
def compactionTarget (place : Place) (context : Context) : Compaction.Target Run where
  currentRevision := attempt place context (Work.askLog Store.currentRevision)
  watermark := attempt place context (Work.askLog Store.compactedTo metaTable)
  compact revision := attempt place context (Work.onLog (Store.compact · revision))

/-- The first time of a run after `time`, for runs at `next` and then every `interval`. -/
def nextAfter (next interval time : Nat) : Nat :=
  if time < next then next else next + ((time - next) / interval + 1) * interval

/-- A run of the compactor. It stops for good once its context is finished or its arithmetic breaks
down. Several runs with nothing between them come to the same as one, so the next one is after
`horizon`. -/
def tick (compactor : Compactor) (due horizon : Nat) : Run Unit := do
  match (← get).store, ← causeOf compactor.context with
  | some store, none =>
    let outcome ← Compaction.run (compactionTarget store.place compactor.context) compactor.settings
    let next :=
      if outcome = .overflow then none else some (nextAfter due compactor.settings.interval horizon)
    modify fun s => { s with compactor := some { compactor with next } }
  | _, _ => modify fun s => { s with compactor := some { compactor with next := none } }

/-- Lets time pass up to a time, in at most so many events. -/
def advanceBy : (events : Nat) → (time : Nat) → Run Unit
  | 0, time => modify fun s => { s with now := max s.now time }
  | events + 1, time => do
    let s ← get
    let released := (s.obstacle.bind Obstacle.until?).filter (· ≤ time)
    let due := (s.compactor.bind Compactor.next).filter (· ≤ time)
    match released, due, s.compactor with
    | some release, some run, some compactor =>
      if run < release then
        modify fun s => { s with now := max s.now run }
        tick compactor run (release - 1)
      else
        modify fun s => { s with now := max s.now release }
        letGo
      advanceBy events time
    | some release, _, _ =>
      modify fun s => { s with now := max s.now release }
      letGo
      advanceBy events time
    | none, some run, some compactor =>
      modify fun s => { s with now := max s.now run }
      tick compactor run time
      advanceBy events time
    | none, _, _ => modify fun s => { s with now := max s.now time }

/-- Lets time pass up to a time. Between now and then, what is held can be let go once, and the
compactor has to run at most before and after that. -/
def advanceTo (time : Nat) : Run Unit := advanceBy 4 time

/-- What is to happen once the action waits. It happens once. -/
def takeTurn : Run Unit := do
  match (← get).obstacle with
  | none => pure ()
  | some obstacle =>
    let now := (← get).now
    let spent (until? : Option Nat) : Run Unit :=
      modify fun s => { s with obstacle := some { obstacle with turn := .wait, until? } }
    match obstacle.turn with
    | .wait => pure ()
    | .release => letGo
    | .releaseAfter span => spent (some (now + span))
    | .cancel name =>
      spent obstacle.until?
      match ← named? name with
      | some context => cancel context
      | none => pure ()
    | .advance span =>
      spent obstacle.until?
      advanceTo (now + span)

/-! ## Pauses -/

/-- A pause under a context, for which someone waits until `patience`. Of two ends at the same time,
that of the context comes first, and that of the patience before that of the pause. -/
def rest (context : Context) (span : Nat) (patience : Option Nat := none) : Run Rest := do
  let wake := (← get).now + span
  takeTurn
  match ← causeOf context with
  | some cause => return .stopped cause
  | none =>
    let horizon := match patience with
      | some time => min time wake
      | none => wake
    match context.deadline.filter (· ≤ horizon) with
    | some deadline =>
      advanceTo deadline
      return .stopped .deadlineExceeded
    | none =>
      advanceTo horizon
      return if patience.any (· ≤ wake) then .abandoned else .over

end RevisionLog.Session
