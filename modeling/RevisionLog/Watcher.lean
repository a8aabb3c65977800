import RevisionLog.Context
import RevisionLog.Log.Entry

/-!
# Watchers

A watcher hands out the entries above a revision in order, without a gap. It reads batches of rows;
an id that is missing below a greater one may belong to a write that is still going on, so it is
claimed with a placeholder only after it was missing in two reads that followed each other.
Placeholders are passed over.

* `Watcher` — a position in the log and what was read and not yet handed out.
* `Watcher.absorb`, `Watcher.judge` — what a read of rows makes of a watcher.
* `Watcher.fetch` — reads and claims until there is something to say, in any monad that can do both.
* `Watcher.poll`, `Watcher.next` — the two ways to pull.
-/

namespace RevisionLog

/-- A position in the log, and what was read and not yet handed out. -/
structure Watcher where
  /-- a new watcher started here continues without loss -/
  cursor : Int
  /-- the last revision that was read -/
  position : Int
  pending : List Entry := []
  /-- the id that was missing in the last read -/
  suspect : Option Int := none
  /-- the watcher has ended for good -/
  done : Bool := false
  deriving DecidableEq, Repr, Inhabited

namespace Watcher

/-- A watcher for the entries above a revision. -/
def since (revision : Int) : Watcher := { cursor := max revision 0, position := max revision 0 }

/-! ## What a read makes of a watcher -/

/-- Walks over rows that follow a position without a gap. Answers the position reached, the entries
that are no placeholders, and the first missing id, if a greater one is there. -/
def absorb (position : Int) : List Entry → Int × List Entry × Option Int
  | [] => (position, [], none)
  | e :: rest =>
    if e.revision ≠ position + 1 then (position, [], some (position + 1))
    else
      let (reached, batch, missing) := absorb e.revision rest
      (reached, if e.isGap then batch else e :: batch, missing)

/-- What to do after a read. -/
inductive Verdict
  | deliver (batch : List Entry)
  /-- only placeholders were read, and more rows may follow -/
  | again
  /-- the id was missing twice -/
  | claim (id : Int)
  deriving DecidableEq, Repr

/-- What to do after a read of rows, and the watcher after it. -/
def judge (w : Watcher) (rows : List Entry) : Verdict × Watcher :=
  let (reached, batch, missing) := absorb w.position rows
  let moved := { w with position := reached }
  match missing with
  | some id =>
    if batch.isEmpty ∧ w.suspect = some id then (.claim id, { moved with suspect := none })
    else (.deliver batch, { moved with suspect := some id })
  | none =>
    if batch.isEmpty ∧ w.position < reached then (.again, moved)
    else (.deliver batch, { moved with suspect := none })

/-- The watcher after an error. One that is final ends it. -/
def fail (w : Watcher) (e : Error) : Watcher :=
  if e.isTerminal then { w with done := true, pending := [] } else w

/-! ## Fetching -/

section Fetch

variable {m : Type → Type} [Monad m]

/-- How a watcher reaches the log: it reads the rows above a position, and it claims an id. -/
structure Source (m : Type → Type) where
  read : Int → m (Except Error (List Entry))
  claim : Int → m (Except Error Unit)

/-- Whether a claim was in order. A taken id needs no claim any more. -/
def settled : Except Error Unit → Option Error
  | .ok _ => none
  | .error .keyExists => none
  | .error e => some e

/-- Reads past the position until there is a batch, which may be empty. A round that only passes
over placeholders and a claim are followed by another one; `fuel` bounds their number, and with more
rounds than rows to pass over and two it is never used up. -/
def fetch (source : Source m) : (fuel : Nat) → Watcher → m (Except Error (List Entry) × Watcher)
  | 0, w => pure (.ok [], w)
  | fuel + 1, w => do
    match ← source.read w.position with
    | .error e => pure (.error e, w)
    | .ok rows =>
      match w.judge rows with
      | (.deliver batch, w) => pure (.ok batch, w)
      | (.again, w) => fetch source fuel w
      | (.claim id, w) =>
        match settled (← source.claim id) with
        | some e => pure (.error e, w)
        | none => fetch source fuel w

/-- All that is there, without waiting. -/
def poll (source : Source m) (fuel : Nat) (w : Watcher) :
    m (Except Error (List Entry) × Watcher) := do
  if !w.pending.isEmpty then pure (.ok w.pending, { w with cursor := w.position, pending := [] })
  else if w.done then pure (.ok [], w)
  else
    match ← fetch source fuel w with
    | (.ok batch, w) => pure (.ok batch, { w with cursor := w.position })
    | (.error e, w) => pure (.error e, w.fail e)

/-- What waiting for the next entry comes to, in one round or in all. -/
inductive Pull
  | entry (e : Entry)
  /-- the watcher has ended -/
  | ended
  | failed (e : Error)
  /-- there is nothing yet -/
  | nothing
  deriving DecidableEq, Repr

/-- Hands out the first pending entry. -/
def pop (w : Watcher) : Option (Entry × Watcher) :=
  match w.pending with
  | [] => none
  | e :: rest =>
    some (e, { w with pending := rest, cursor := if rest.isEmpty then w.position else e.revision })

/-- One round of waiting for the next entry. Errors that are not final count as nothing yet. -/
def round (source : Source m) (fuel : Nat) (w : Watcher) : m (Pull × Watcher) := do
  match w.pop with
  | some (e, w) => pure (.entry e, w)
  | none =>
    if w.done then pure (.ended, w)
    else
      match ← fetch source fuel w with
      | (.ok batch, w) =>
        match { w with pending := batch }.pop with
        | some (e, w) => pure (.entry e, w)
        | none => pure (.nothing, { w with cursor := w.position })
      | (.error e, w) => if e.isTerminal then pure (.failed e, w.fail e) else pure (.nothing, w)

/-- Waits for the next entry, with a pause after every round that found nothing, in at most so many
rounds. Where the context ends a pause, the watcher ends with it; where the one who waits gives up,
it stays as it is. `fuel` bounds each fetch. -/
def next (source : Source m) (pause : m Rest) (fuel : m Nat) :
    (rounds : Nat) → Watcher → m (Pull × Watcher)
  | 0, w => pure (.nothing, w)
  | rounds + 1, w => do
    match ← round source (← fuel) w with
    | (.nothing, w) =>
      match ← pause with
      | .stopped cause => pure (.failed cause.toError, w.fail cause.toError)
      | .abandoned => pure (.nothing, w)
      | .over => next source pause fuel rounds w
    | pulled => pure pulled

end Fetch

end Watcher

end RevisionLog
