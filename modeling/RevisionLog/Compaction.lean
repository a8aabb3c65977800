import RevisionLog.Error
import RevisionLog.Settings

/-!
# Compaction in steps

A long way of the watermark is gone in steps, each a transaction of its own, so that none of them
takes long.

* `Compaction.Target` — how the log is reached, in any monad.
* `Compaction.advance` — the steps from a watermark to a revision.
* `Compaction.run` — one run: up to the current revision less the ones to retain.

Sums and differences of revisions stay within their range, or the run breaks down.
-/

namespace RevisionLog.Compaction

variable {m : Type → Type} [Monad m]

/-- How the log is reached. -/
structure Target (m : Type → Type) where
  currentRevision : m (Except Error Int)
  watermark : m (Except Error Int)
  compact : Int → m (Except Error Nat)

/-- What a run comes to. -/
inductive Outcome
  /-- so many rows are gone -/
  | removed (rows : Nat)
  | failed (e : Error)
  /-- a sum or difference left the range of revisions -/
  | overflow
  deriving DecidableEq, Repr

/-- How far one step goes, at least one revision. -/
def step (settings : CompactionSettings) : Int := max settings.batchSize 1

theorem step_pos (settings : CompactionSettings) : 0 < step settings := by
  unfold step
  omega

/-- The steps from a watermark to a revision. `removed` rows are gone so far. -/
def advance (target : Target m) (settings : CompactionSettings) (revision watermark : Int)
    (removed : Nat) : m Outcome :=
  if watermark < revision then
    match _ : Revision.add? watermark (step settings) with
    | none => pure .overflow
    | some reached => do
      let next := min reached revision
      match ← target.compact next with
      | .error e => pure (.failed e)
      | .ok n => advance target settings revision next (removed + n)
  else pure (.removed removed)
termination_by (revision - watermark).toNat
decreasing_by
  obtain ⟨-, rfl⟩ := Revision.add?_eq_some.1 ‹Revision.add? watermark (step settings) = some _›
  have := step_pos settings
  omega

/-- Compacts up to a revision, from the watermark there is. -/
def compactTo (target : Target m) (settings : CompactionSettings) (revision : Int) : m Outcome := do
  match ← target.watermark with
  | .error e => pure (.failed e)
  | .ok watermark => advance target settings revision watermark 0

/-- One run. -/
def run (target : Target m) (settings : CompactionSettings) : m Outcome := do
  match ← target.currentRevision with
  | .error e => pure (.failed e)
  | .ok current =>
    match Revision.sub? current settings.retained with
    | none => pure .overflow
    | some revision => compactTo target settings revision

end RevisionLog.Compaction
