import RevisionLog.Error

/-!
# Contexts

The caller's side of every operation: a context is finished once it is cancelled or its deadline has
passed. A context derived from another one is finished with it; finishing the derived one leaves the
other as it is.

* `Cause` — the two ways to be finished.
* `Tokens` — which contexts were made and which were cancelled.
* `Context` — the tokens by which it can be cancelled, its own first, and its deadline.
* `Context.cause?` — whether it is finished, and why. Cancellation comes before the deadline.
* `Rest` — how a pause under a context ends.
-/

namespace RevisionLog

/-- Why a context is finished. -/
inductive Cause
  | cancelled
  | deadlineExceeded
  deriving DecidableEq, Repr

/-- The error of an operation whose context is finished. -/
def Cause.toError : Cause → Error
  | cancelled => .cancelled
  | deadlineExceeded => .deadlineExceeded

/-- How a pause under a context ends. -/
inductive Rest
  | over
  /-- the context was finished first -/
  | stopped (cause : Cause)
  /-- the one who waited for its end has given up -/
  | abandoned
  deriving DecidableEq, Repr

/-- The tokens made so far, which are numbered in order, and those that were cancelled. -/
structure Tokens where
  made : Nat := 0
  cancelled : List Nat := []
  deriving DecidableEq, Repr, Inhabited

/-- The signal under which operations run. -/
structure Context where
  /-- its own token and those of all contexts it is derived from -/
  lineage : List Nat
  /-- the time from which on it is finished -/
  deadline : Option Nat := none
  deriving DecidableEq, Repr, Inhabited

namespace Context

/-- A context that nothing else finishes. -/
def background (tokens : Tokens) : Context × Tokens :=
  (⟨[tokens.made], none⟩, { tokens with made := tokens.made + 1 })

/-- A derived context with a token of its own. -/
def child (parent : Context) (tokens : Tokens) : Context × Tokens :=
  (⟨tokens.made :: parent.lineage, parent.deadline⟩, { tokens with made := tokens.made + 1 })

/-- A derived context that is finished at a time, or at the deadline of the other one if that is
sooner. -/
def withDeadline (parent : Context) (time : Nat) (tokens : Tokens) : Context × Tokens :=
  let deadline := match parent.deadline with
    | some sooner => if sooner < time then sooner else time
    | none => time
  (⟨tokens.made :: parent.lineage, some deadline⟩, { tokens with made := tokens.made + 1 })

/-- A derived context that is finished some time from now. -/
def withTimeout (parent : Context) (now span : Nat) (tokens : Tokens) : Context × Tokens :=
  parent.withDeadline (now + span) tokens

/-- Cancels a context, and with it all that are derived from it. -/
def cancel (c : Context) (tokens : Tokens) : Tokens :=
  { tokens with cancelled := c.lineage.take 1 ++ tokens.cancelled }

/-- Whether a context is cancelled, on its own or with one it is derived from. -/
def isCancelled (c : Context) (tokens : Tokens) : Bool := c.lineage.any (· ∈ tokens.cancelled)

/-- Whether a context is finished, and why. -/
def cause? (c : Context) (tokens : Tokens) (now : Nat) : Option Cause :=
  if c.isCancelled tokens then some .cancelled
  else
    match c.deadline with
    | some time => if time ≤ now then some .deadlineExceeded else none
    | none => none

end Context

end RevisionLog
