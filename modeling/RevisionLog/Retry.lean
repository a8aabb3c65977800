import RevisionLog.Error
import RevisionLog.Settings

/-!
# Repeated attempts

An attempt is made until it succeeds, until the caller's context ends it, or until as many attempts
as allowed have failed. Between two attempts there is a pause, which the context can end.

* `Retry.attempts` — how many attempts a policy allows, at least one.
* `Retry.run` — the attempts, in any monad that can make them and can wait.
-/

namespace RevisionLog.Retry

variable {m : Type → Type} [Monad m]

/-- How many attempts are allowed. -/
def attempts (policy : RetrySettings) : Nat := max policy.attempts 1

/-- Makes attempts while `left` are left of `allowed`. `last` is the error of the attempt before. -/
def go (attempt pause : m (Except Error Unit)) (allowed : Nat) :
    (left : Nat) → (last : Error) → m (Except Error Unit)
  | 0, last => pure (.error (.setup allowed last))
  | left + 1, _ => do
    match ← attempt with
    | .ok _ => pure (.ok ())
    | .error e =>
      if e.isCancellation then pure (.error e)
      else if left = 0 then pure (.error (.setup allowed e))
      else
        match ← pause with
        | .error cause => pure (.error cause)
        | .ok _ => go attempt pause allowed left e

/-- Attempts under a policy. -/
def run (policy : RetrySettings) (attempt pause : m (Except Error Unit)) : m (Except Error Unit) :=
  go attempt pause (attempts policy) (attempts policy) (.internal "no setup attempt ran")

end RevisionLog.Retry
