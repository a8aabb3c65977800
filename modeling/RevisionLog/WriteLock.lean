import RevisionLog.Context

/-!
# The write lock

Where an engine admits one writer at a time, the writers of a process take turns: each holds the
lock while its transaction runs. A lock that is not needed never makes anyone wait.

* `WriteLock` — the state that all handles of one lock share.
* `WriteLock.tryAcquire` — one attempt to get it, under a context.
-/

namespace RevisionLog

/-- The state of a lock. -/
inductive WriteLock
  /-- there is nothing to take turns for -/
  | disabled
  | free
  | held
  deriving DecidableEq, Repr, Inhabited

namespace WriteLock

/-- A new lock. -/
def make (enabled : Bool) : WriteLock := if enabled then free else disabled

def isEnabled : WriteLock → Bool
  | disabled => false
  | _ => true

/-- What came of an attempt. -/
inductive Attempt
  /-- there is nothing to hold -/
  | notNeeded
  | granted
  /-- the context is finished -/
  | refused (cause : Cause)
  /-- someone else holds the lock -/
  | waiting
  deriving DecidableEq, Repr

/-- One attempt to get the lock, and the lock after it. A finished context is refused even where the
lock is free. -/
def tryAcquire (lock : WriteLock) (cause : Option Cause) : Attempt × WriteLock :=
  match lock, cause with
  | disabled, _ => (.notNeeded, disabled)
  | lock, some cause => (.refused cause, lock)
  | free, none => (.granted, held)
  | held, none => (.waiting, held)

/-- The lock after its holder is done. -/
def release : WriteLock → WriteLock
  | disabled => disabled
  | _ => free

end WriteLock

end RevisionLog
