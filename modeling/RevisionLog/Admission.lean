import RevisionLog.Transaction
import RevisionLog.WriteLock

/-!
# Admission

How a transaction comes to run: it takes one of the connections of its store, then the write lock if
it needs it, and gives both back when it ends. At every move its context is asked, so that nobody
waits for a caller that is gone.

* `Resources` — what the transactions of one store share.
* `Admission.Stage` — how far a transaction has come, and what it holds there.
* `Admission.move` — its next move, or none where it has to wait.
* `Admission.finish` — its end from any stage, which gives back what it holds.
-/

namespace RevisionLog

/-- What the transactions of one store share. -/
structure Resources where
  /-- connections that no transaction has -/
  connections : Nat
  lock : WriteLock
  deriving DecidableEq, Repr, Inhabited

namespace Admission

/-- How far a transaction has come. -/
inductive Stage
  | starting
  /-- it wants a connection -/
  | connecting
  /-- it has a connection and wants the lock -/
  | locking
  /-- it has all it needs, and its connection can be interrupted -/
  | opening (locked : Bool)
  /-- its work is under way -/
  | working (locked : Bool)
  /-- it is over; where it was refused, for this cause -/
  | ended (refusal : Option Cause)
  deriving DecidableEq, Repr

namespace Stage

/-- Whether a transaction has a connection. -/
def connected : Stage → Bool
  | starting => false
  | connecting => false
  | ended _ => false
  | _ => true

/-- Whether a transaction has the lock. -/
def locked : Stage → Bool
  | opening locked => locked
  | working locked => locked
  | _ => false

/-- Whether an interruption of a transaction reaches its connection. -/
def armed : Stage → Bool
  | opening _ => true
  | working _ => true
  | _ => false

end Stage

/-- The end of a transaction. What it holds is given back. -/
def finish (resources : Resources) (stage : Stage) (refusal : Option Cause) : Resources × Stage :=
  ({ connections := if stage.connected then resources.connections + 1 else resources.connections
     lock := if stage.locked then resources.lock.release else resources.lock },
    .ended refusal)

/-- The next move of a transaction on its way to its work. There is none while what it wants is not
free, and none once it works or is over. -/
def move (needsLock : Bool) (cause : Option Cause) (resources : Resources) :
    Stage → Option (Resources × Stage)
  | .starting =>
    match cause with
    | some c => some (finish resources .starting (some c))
    | none => some (resources, .connecting)
  | .connecting =>
    match cause with
    | some c => some (finish resources .connecting (some c))
    | none =>
      if resources.connections = 0 then none
      else some ({ resources with connections := resources.connections - 1 }, .locking)
  | .locking =>
    if needsLock then
      match resources.lock.tryAcquire cause with
      | (.notNeeded, _) => some (resources, .opening false)
      | (.granted, lock) => some ({ resources with lock }, .opening true)
      | (.refused c, _) => some (finish resources .locking (some c))
      | (.waiting, _) => none
    else some (resources, .opening false)
  | .opening locked =>
    match cause with
    | some c => some (finish resources (.opening locked) (some c))
    | none => some (resources, .working locked)
  | .working _ => none
  | .ended _ => none

end Admission

end RevisionLog
