import RevisionLog.Admission
import RevisionLog.Proofs.Scripts

/-!
# All or nothing

A transaction goes its way from the caller to the commit, and its context may be finished at any
moment of it: before it begins, while it waits for a connection or for the lock, during a statement,
before the commit or after it. Either it is committed, and then the content is what its statements
made of it; or the content is what it was. The latter takes an engine that can take back what was
done, and a script that carries out nothing more once a statement of it has failed: the engine may
have given the transaction up by then, and what is done behind its end stays.

* `Moment`, `Context.causeAt` — what has been cancelled by when; a finished context stays finished.
* `Admission.walk` — the way to a connection and the lock.
* `Passage` — how a transaction goes; `Passage.run` — what comes of it.
* `Passage.Commits`, `Passage.Raises` — that it is committed, and what goes wrong first where it is
  not.
* `Passage.Settles`, `Passage.all_or_nothing` — what is stored in either case, and what the caller
  is told.
-/

namespace RevisionLog

/-! ## Moments -/

/-- What has been cancelled by a moment, and its time. -/
structure Moment where
  tokens : Tokens := {}
  now : Nat := 0

/-- Nothing that was cancelled is taken back, and time does not go back. -/
instance : LE Moment := ⟨fun m n => m.tokens.cancelled ⊆ n.tokens.cancelled ∧ m.now ≤ n.now⟩

instance : DecidableLE Moment := fun m n =>
  inferInstanceAs (Decidable (m.tokens.cancelled ⊆ n.tokens.cancelled ∧ m.now ≤ n.now))

namespace Context

variable {c : Context} {m n : Moment} {cause : Cause}

/-- Whether a context is finished at a moment, and why. -/
def causeAt (c : Context) (m : Moment) : Option Cause := c.cause? m.tokens m.now

/-- The cause is that the context is cancelled, if it is. -/
theorem toError_of_causeAt (h : c.causeAt m = some cause) :
    cause.toError = if c.isCancelled m.tokens then .cancelled else .deadlineExceeded := by
  rw [causeAt, cause?] at h
  split at h
  · next hcancelled =>
    obtain rfl := Option.some.inj h
    rw [if_pos hcancelled]
    rfl
  · next hpending =>
    rw [if_neg hpending]
    split at h
    · split at h <;> cases h
      rfl
    · cases h

theorem isCancelled_mono (hmn : m ≤ n) (h : c.isCancelled m.tokens = true) :
    c.isCancelled n.tokens = true := by
  obtain ⟨token, htoken, hcancelled⟩ := List.any_eq_true.1 h
  exact List.any_eq_true.2 ⟨token, htoken, decide_eq_true (hmn.1 (of_decide_eq_true hcancelled))⟩

/-- **A finished context stays finished.** -/
theorem causeAt_mono (hmn : m ≤ n) (h : c.causeAt m ≠ none) : c.causeAt n ≠ none := by
  rw [causeAt, cause?] at h ⊢
  split
  · exact Option.some_ne_none _
  · next hpending =>
    have hbefore : ¬c.isCancelled m.tokens = true := fun hm => hpending (isCancelled_mono hmn hm)
    rw [if_neg hbefore] at h
    rcases hdeadline : c.deadline with _ | time <;> rw [hdeadline] at h
    · exact h
    · dsimp only at h ⊢
      split at h
      · next hpassed =>
        rw [if_pos (Nat.le_trans hpassed hmn.2)]
        exact Option.some_ne_none _
      · exact absurd rfl h

end Context

theorem Cause.isInterruption_toError (cause : Cause) : cause.toError.isInterruption = true := by
  cases cause <;> rfl

/-- Only a refusal that is an interruption is told as one. -/
theorem Error.isInterruption_ofFault {fault : Fault} :
    (Error.ofFault fault).isInterruption = true ↔ fault = .interrupted := by
  cases fault <;> simp [ofFault, isInterruption, isCancellation]

/-! ## The way to the work -/

/-- How far a transaction comes that tries to get on at these moments, with what is free then. -/
def Admission.walk (needsLock : Bool) (context : Context) :
    Stage → List (Moment × Resources) → Stage
  | stage, [] => stage
  | stage, (m, resources) :: tries =>
    match move needsLock (context.causeAt m) resources stage with
    | some (_, stage) => walk needsLock context stage tries
    | none => walk needsLock context stage tries

namespace Admission

variable {needsLock : Bool} {context : Context} {resources : Resources} {stage : Stage}
  {cause : Cause}

/-- A transaction that ends on the way was asked to by its context. -/
theorem of_move_ended {asked : Option Cause} {after : Resources}
    (h : move needsLock asked resources stage = some (after, .ended (some cause))) :
    asked = some cause := by
  cases stage with
  | starting => cases asked <;> cases h; rfl
  | connecting =>
    rcases asked with _ | c
    · simp only [move] at h
      split at h <;> cases h
    · cases h
      rfl
  | locking =>
    simp only [move] at h
    split at h
    · split at h
      · cases h
      · cases h
      · next hattempt =>
        cases h
        simp only [WriteLock.tryAcquire] at hattempt
        split at hattempt <;> cases hattempt
        rfl
      · cases h
    · cases h
  | opening locked => cases asked <;> cases h; rfl
  | working locked => cases h
  | ended refusal => cases h

/-- It was asked to at one of the moments of its way. -/
theorem of_walk_ended {tries : List (Moment × Resources)}
    (h : walk needsLock context stage tries = .ended (some cause)) :
    stage = .ended (some cause) ∨ ∃ m ∈ tries.map Prod.fst, context.causeAt m = some cause := by
  induction tries generalizing stage with
  | nil => exact Or.inl h
  | cons first tries ih =>
    obtain ⟨m, resources⟩ := first
    rw [walk] at h
    split at h
    · next after stage' hmove =>
      rcases ih h with rfl | ⟨n, hn, hcause⟩
      · exact Or.inr ⟨m, List.mem_cons_self, of_move_ended hmove⟩
      · exact Or.inr ⟨n, List.mem_cons_of_mem m hn, hcause⟩
    · rcases ih h with hended | ⟨n, hn, hcause⟩
      · exact Or.inl hended
      · exact Or.inr ⟨n, List.mem_cons_of_mem m hn, hcause⟩

end Admission

open Admission Transaction

/-- How a transaction goes: who asks for it and what for, and what it comes upon at every moment of
its way. -/
structure Passage where
  context : Context
  mode : Mode
  serializeWrites : Bool := false
  start : Moment
  /-- the moments at which it tries to get on to its work, and what is free then -/
  tries : List (Moment × Resources)
  /-- why the engine does not let it begin -/
  begin : Option Fault := none
  /-- what the engine breaks its statements off with -/
  breaks : List (Option Break) := []
  /-- the moment of the check before the commit -/
  committing : Moment
  /-- why the engine does not let it commit -/
  commit : Option Fault := none
  returning : Moment

namespace Passage

variable {α : Type}

/-- Where a transaction has come to when it begins, or does not. -/
def stage (passage : Passage) : Stage :=
  walk (passage.mode.needsLock passage.serializeWrites) passage.context .connecting passage.tries

/-- Whether a connection and the lock were had. -/
def entry (passage : Passage) : Except Error Unit :=
  match passage.stage with
  | .working _ => .ok ()
  | .ended (some cause) => .error cause.toError
  | _ => .error .poolExhausted

/-- A refusal by the engine. -/
def refusal : Option Fault → Except Error Unit
  | none => .ok ()
  | some fault => .error (.ofFault fault)

def looks (passage : Passage) : Looks where
  start := passage.context.causeAt passage.start
  committing := passage.context.causeAt passage.committing
  returning := passage.context.causeAt passage.returning

/-- What comes of its script. -/
def played (passage : Passage) (script : Script α) (db : Database) (reversible : Bool := true) :
    Except Error α × Connection :=
  script.play passage.breaks (Connection.begun { stored := db, reversible })

/-- What comes of a transaction. -/
def run (passage : Passage) (script : Script α) (db : Database) (reversible : Bool := true) :
    Except Error α × Database :=
  Transaction.conduct passage.looks passage.entry (refusal passage.begin) (refusal passage.commit)
    (script.play passage.breaks) db reversible

/-- One moment comes after the other, a transaction that is neither let in nor refused gave up
waiting for a connection, and the engine is only interrupted for a context that is finished. -/
structure Orderly (passage : Passage) : Prop where
  moments : (passage.start :: passage.tries.map Prod.fst ++
    [passage.committing, passage.returning]).Pairwise (· ≤ ·)
  arrived : (∃ locked, passage.stage = .working locked) ∨
    (∃ cause, passage.stage = .ended (some cause)) ∨ passage.stage = .connecting
  interrupted :
    passage.begin = some .interrupted ∨
      some Fault.interrupted ∈ passage.breaks.map (Option.map Break.fault) ∨
      passage.commit = some .interrupted →
    passage.context.causeAt passage.returning ≠ none

/-- The transaction is begun. -/
structure Begun (passage : Passage) : Prop where
  pending : passage.context.causeAt passage.start = none
  admitted : ∃ locked, passage.stage = .working locked
  begun : passage.begin = none

/-- The transaction is committed: it is begun, its script comes through and leaves a transaction
open, and nobody stops it before the engine has committed it. -/
structure Commits (passage : Passage) (script : Script α) (db : Database) (reversible : Bool) : Prop
    extends Begun passage where
  finished : ∃ a c, passage.played script db reversible = (.ok a, c) ∧ c.working.isSome = true
  wanted : passage.context.causeAt passage.committing = none
  committed : passage.commit = none

/-- What goes wrong first in a transaction. -/
inductive Raises (passage : Passage) (script : Script α) (db : Database) (reversible : Bool) :
    Error → Prop
  /-- the context is finished before anything is done -/
  | refused {cause : Cause} :
    passage.context.causeAt passage.start = some cause →
      Raises passage script db reversible cause.toError
  /-- it is finished on the way to the script -/
  | stopped {cause : Cause} :
    passage.context.causeAt passage.start = none → passage.stage = .ended (some cause) →
      Raises passage script db reversible cause.toError
  /-- no connection becomes free in time -/
  | exhausted :
    passage.context.causeAt passage.start = none → passage.stage = .connecting →
      Raises passage script db reversible .poolExhausted
  /-- the engine does not let it begin -/
  | unbegun {fault : Fault} :
    passage.context.causeAt passage.start = none → (∃ locked, passage.stage = .working locked) →
      passage.begin = some fault → Raises passage script db reversible (.ofFault fault)
  /-- the script fails -/
  | failed {e : Error} {c : Connection} :
    passage.Begun → passage.played script db reversible = (.error e, c) →
      Raises passage script db reversible e
  /-- the context is finished by the check before the commit -/
  | late {a : α} {c : Connection} {cause : Cause} :
    passage.Begun → passage.played script db reversible = (.ok a, c) →
      passage.context.causeAt passage.committing = some cause →
      Raises passage script db reversible cause.toError
  /-- the engine does not let it commit -/
  | uncommitted {a : α} {c : Connection} {fault : Fault} :
    passage.Begun → passage.played script db reversible = (.ok a, c) →
      passage.context.causeAt passage.committing = none → passage.commit = some fault →
      Raises passage script db reversible (.ofFault fault)
  /-- its transaction came to an end before -/
  | severed {a : α} {c : Connection} :
    passage.Begun → passage.played script db reversible = (.ok a, c) →
      passage.context.causeAt passage.committing = none → passage.commit = none →
      c.working = none → Raises passage script db reversible (.query (.unbegun "commit"))

/-- The moment at which the outcome is told: at once where the context is finished before anything
is done. -/
def telling (passage : Passage) : Moment :=
  match passage.context.causeAt passage.start with
  | some _ => passage.start
  | none => passage.returning

variable {passage : Passage} {script : Script α} {db : Database} {reversible : Bool}

/-- Where something goes wrong nothing is committed. -/
theorem Raises.not_commits {e : Error} (h : passage.Raises script db reversible e) :
    ¬passage.Commits script db reversible := by
  intro hcommits
  obtain ⟨locked, hadmitted⟩ := hcommits.admitted
  obtain ⟨a, c, hfinished, hopen⟩ := hcommits.finished
  cases h with
  | refused hstart => cases hstart.symm.trans hcommits.pending
  | stopped _ hstage => cases hstage.symm.trans hadmitted
  | exhausted _ hstage => cases hstage.symm.trans hadmitted
  | unbegun _ _ hbegin => cases hbegin.symm.trans hcommits.begun
  | failed _ hplayed => cases hplayed.symm.trans hfinished
  | late _ _ hcheck => cases hcheck.symm.trans hcommits.wanted
  | uncommitted _ _ _ hcommit => cases hcommit.symm.trans hcommits.committed
  | severed _ hplayed _ _ hclosed =>
    cases hplayed.symm.trans hfinished
    rw [hclosed] at hopen
    cases hopen

/-- What is left of a transaction that was not committed. -/
structure Leaves (passage : Passage) (script : Script α) (db : Database) (reversible : Bool)
    (left : Database) : Prop where
  unbegun : ¬passage.Begun → left = db
  begun : passage.Begun → left = (passage.played script db reversible).2.undone.stored

theorem Leaves.of_not_begun (h : ¬passage.Begun) : passage.Leaves script db reversible db :=
  ⟨fun _ => rfl, fun hbegun => absurd hbegun h⟩

/-- What becomes of a transaction: it is committed, or something goes wrong first. -/
def Ends (passage : Passage) (script : Script α) (db : Database) (reversible : Bool) : Prop :=
  (passage.Commits script db reversible ∧ ∃ a c changed,
    passage.played script db reversible = (.ok a, c) ∧ c.working = some changed ∧
      passage.run script db reversible = (.ok a, changed)) ∨
  ∃ e left, passage.Raises script db reversible e ∧ passage.Leaves script db reversible left ∧
    passage.run script db reversible =
      (.error (told (passage.context.causeAt passage.telling) e), left)

/-- One that is begun ends by its script, by the check before the commit, or at the commit. -/
theorem Begun.ends (h : passage.Begun) (script : Script α) (db : Database) (reversible : Bool) :
    passage.Ends script db reversible := by
  obtain ⟨hstart, ⟨locked, hstage⟩, hbegin⟩ := id h
  have hentry : passage.entry = .ok () := by rw [entry, hstage]
  have hleaves : passage.Leaves script db reversible
      (passage.played script db reversible).2.undone.stored :=
    ⟨fun hnot => absurd h hnot, fun _ => rfl⟩
  rw [Ends, run, Transaction.conduct, looks, telling]
  rw [hstart, hentry, hbegin]
  rcases hplayed : passage.played script db reversible with ⟨e | a, c⟩ <;>
    rw [hplayed] at hleaves <;> rw [played] at hplayed <;> simp only [perform, hplayed]
  · exact Or.inr ⟨e, _, .failed h hplayed, hleaves, rfl⟩
  rcases hcheck : passage.context.causeAt passage.committing with _ | cause
  · rcases hcommit : passage.commit with _ | fault
    · rcases hworking : c.working with _ | changed
      · refine Or.inr ⟨_, _, .severed h hplayed hcheck hcommit hworking, hleaves, ?_⟩
        simp only [stop, refusal, Connection.obey, hworking]
        rfl
      · have hopen : c.working.isSome = true := by simp [hworking]
        refine Or.inl ⟨⟨h, ⟨a, c, hplayed, hopen⟩, hcheck, hcommit⟩, a, c, changed, rfl, hworking,
          ?_⟩
        simp only [stop, refusal, Connection.obey, hworking]
        rfl
    · exact Or.inr ⟨_, _, .uncommitted h hplayed hcheck hcommit, hleaves, rfl⟩
  · exact Or.inr ⟨_, _, .late h hplayed hcheck, hleaves, rfl⟩

/-- **A transaction is committed, or something went wrong first.** -/
theorem ends (h : passage.Orderly) (script : Script α) (db : Database) (reversible : Bool) :
    passage.Ends script db reversible := by
  by_cases hbegun : passage.Begun
  · exact hbegun.ends script db reversible
  have hleaves : passage.Leaves script db reversible db := .of_not_begun hbegun
  rw [Ends, run, Transaction.conduct, looks, telling]
  rcases hstart : passage.context.causeAt passage.start with _ | cause
  · right
    rcases h.arrived with ⟨locked, hstage⟩ | ⟨cause, hstage⟩ | hstage
    · rcases hbegin : passage.begin with _ | fault
      · exact absurd ⟨hstart, ⟨locked, hstage⟩, hbegin⟩ hbegun
      · have hentry : passage.entry = .ok () := by rw [entry, hstage]
        rw [hentry]
        exact ⟨_, _, .unbegun hstart ⟨locked, hstage⟩ hbegin, hleaves, rfl⟩
    · have hentry : passage.entry = .error cause.toError := by rw [entry, hstage]
      rw [hentry]
      exact ⟨_, _, .stopped hstart hstage, hleaves, rfl⟩
    · have hentry : passage.entry = .error .poolExhausted := by rw [entry, hstage]
      rw [hentry]
      exact ⟨_, _, .exhausted hstart hstage, hleaves, rfl⟩
  · refine Or.inr ⟨_, _, .refused hstart, hleaves, ?_⟩
    simp only [hstart, told, cause.isInterruption_toError]
    rfl

/-- A script that heeds errors leaves the content as it was where it is not committed. -/
theorem Leaves.eq_of_heeds {left : Database} (h : passage.Leaves script db true left)
    (hheeds : script.Heeds) : left = db := by
  by_cases hbegun : passage.Begun
  · rw [h.begun hbegun]
    exact hheeds.undone_play passage.breaks db
  · exact h.unbegun hbegun

/-- What a transaction that went well left is what its script makes of the content undisturbed, if
that passes every error on. -/
theorem kept_of_run_eq_ok (h : passage.Orderly) (hscript : script.Propagates) {a : α}
    {db' : Database} (hrun : passage.run script db = (.ok a, db')) :
    script.kept (Connection.begun { stored := db }) = .ok (a, db') := by
  rcases ends h script db true with ⟨-, b, c, changed, hplayed, hworking, hgone⟩ |
    ⟨e, left, -, -, hgone⟩ <;> rw [hgone] at hrun <;> cases hrun
  rw [Script.kept, (hscript.play_of_ok hplayed).1]
  simp only [Connection.visible, hworking]
  rfl

/-- A transaction that failed left the content as it was. -/
theorem eq_of_run_eq_error (h : passage.Orderly) (hscript : script.Propagates) {e : Error}
    {db' : Database} (hrun : passage.run script db = (.error e, db')) : db' = db := by
  rcases ends h script db true with ⟨-, b, c, changed, -, -, hgone⟩ |
    ⟨e', left, -, hleaves, hgone⟩ <;> rw [hgone] at hrun <;> cases hrun
  exact hleaves.eq_of_heeds hscript.heeds

/-! ## What the caller is told -/

/-- What is no interruption is told as it is. -/
theorem told_of_isInterruption_eq_false {e : Error} (hkind : e.isInterruption = false)
    (returning : Option Cause) : told returning e = e := by
  simp only [told]
  split
  · rw [if_neg (by rw [hkind]; decide)]
  · rfl

/-- An interruption is told as the cause by which the context is finished. -/
theorem told_of_isInterruption {c : Context} {m : Moment} {e : Error}
    (hkind : e.isInterruption = true) (hdone : c.causeAt m ≠ none) :
    told (c.causeAt m) e = if c.isCancelled m.tokens then .cancelled else .deadlineExceeded := by
  obtain ⟨cause, hcause⟩ := Option.ne_none_iff_exists'.1 hdone
  rw [hcause, told, if_pos hkind]
  exact Context.toError_of_causeAt hcause

/-- All moments but the last are up to it. -/
theorem Orderly.le_returning (h : passage.Orderly) {m : Moment}
    (hm : m ∈ passage.start :: passage.tries.map Prod.fst ++ [passage.committing]) :
    m ≤ passage.returning := by
  have hmoments := h.moments
  have hsplit :
    passage.start :: passage.tries.map Prod.fst ++ [passage.committing, passage.returning] =
      (passage.start :: passage.tries.map Prod.fst ++ [passage.committing]) ++
        [passage.returning] := by simp
  rw [hsplit] at hmoments
  exact (List.pairwise_append.1 hmoments).2.2 m hm _ (List.mem_singleton_self _)

/-- **Interruptions have a cause.** Where an interruption is what goes wrong first, the context is
finished by the time the caller is told, unless it is the script itself that made it up. -/
theorem Raises.exists_played (h : passage.Orderly) {e : Error}
    (hraises : passage.Raises script db reversible e) (hkind : e.isInterruption = true)
    (hpending : passage.context.causeAt passage.telling = none) :
    ∃ c, passage.played script db reversible = (.error e, c) := by
  have hreturning : ∀ m ∈ passage.start :: passage.tries.map Prod.fst ++ [passage.committing],
      passage.context.causeAt passage.start = none → passage.context.causeAt m = none := by
    intro m hm hstart
    rw [telling, hstart] at hpending
    by_contra hdone
    exact Context.causeAt_mono (h.le_returning hm) hdone hpending
  have hengine : passage.context.causeAt passage.start = none →
      ¬(passage.begin = some .interrupted ∨
        some Fault.interrupted ∈ passage.breaks.map (Option.map Break.fault) ∨
        passage.commit = some .interrupted) := by
    intro hstart hinterrupted
    rw [telling, hstart] at hpending
    exact h.interrupted hinterrupted hpending
  cases hraises with
  | refused hstart =>
    rw [telling, hstart] at hpending
    exact nomatch hpending.symm.trans hstart
  | stopped hstart hstage =>
    rcases of_walk_ended hstage with hstage | ⟨m, hm, hcause⟩
    · cases hstage
    · have hnone := hreturning m (List.mem_append_left _ (List.mem_cons_of_mem _ hm)) hstart
      cases hcause.symm.trans hnone
  | exhausted => cases hkind
  | unbegun hstart _ hbegin =>
    rw [Error.isInterruption_ofFault] at hkind
    exact absurd (Or.inl (hkind ▸ hbegin)) (hengine hstart)
  | failed _ hplayed => exact ⟨_, hplayed⟩
  | severed => cases hkind
  | late hbegun _ hcheck =>
    have hnone :=
      hreturning passage.committing (List.mem_append_right _ (List.mem_singleton_self _))
        hbegun.pending
    cases hcheck.symm.trans hnone
  | uncommitted hbegun _ _ hcommit =>
    rw [Error.isInterruption_ofFault] at hkind
    exact absurd (Or.inr (Or.inr (hkind ▸ hcommit))) (hengine hbegun.pending)

/-- What is stored after a transaction, and what its caller is told. -/
structure Settles (passage : Passage) (script : Script α) (db : Database) (reversible : Bool) :
    Prop where
  /-- it goes well exactly where it is committed -/
  commits : (∃ a, (passage.run script db reversible).1 = .ok a) ↔
    passage.Commits script db reversible
  /-- what is stored then is the copy that its statements worked on -/
  keeps : ∀ a, (passage.run script db reversible).1 = .ok a →
    (passage.played script db reversible).1 = .ok a ∧
      (passage.played script db reversible).2.working = some (passage.run script db reversible).2
  /-- these did what they do undisturbed, if the script passes every error on -/
  undisturbed : script.Propagates → ∀ a, (passage.run script db reversible).1 = .ok a →
    passage.played script db reversible =
      script.play [] (Connection.begun { stored := db, reversible })
  /-- it does not go well if the context is finished by the check before the commit -/
  stopped : ∀ m ≤ passage.committing, passage.context.causeAt m ≠ none →
    ∀ a, (passage.run script db reversible).1 ≠ .ok a
  /-- where it does not go well it is given up, as far as that is in the engine's power -/
  leaves : ∀ e, (passage.run script db reversible).1 = .error e →
    passage.Leaves script db reversible (passage.run script db reversible).2
  /-- so the content is what it was, if the engine can take back what was done and the script
  carries out nothing after an error -/
  nothing : reversible = true → script.Heeds →
    ∀ e, (passage.run script db reversible).1 = .error e →
      (passage.run script db reversible).2 = db
  /-- what went wrong first is told: an interruption as the cause by which the context is finished,
  anything else as itself -/
  tells : ∀ e, (passage.run script db reversible).1 = .error e →
    ∃ raw, passage.Raises script db reversible raw ∧
      (raw.isInterruption = false → e = raw) ∧
      (raw.isInterruption = true → passage.context.causeAt passage.telling ≠ none →
        e = if passage.context.isCancelled passage.telling.tokens then .cancelled
          else .deadlineExceeded) ∧
      (raw.isInterruption = true → passage.context.causeAt passage.telling = none →
        e = raw ∧ ∃ c, passage.played script db reversible = (.error raw, c))

/-- **All or nothing.** A transaction of any mode and any script, whose context may be finished
and whose statements may be broken off at any moment, goes well exactly where it is committed, and
then its statements' copy is stored. Otherwise it is given up and its caller told why: that leaves
the content as it was where the engine can take back what was done, unless the script goes on
after an error. -/
theorem all_or_nothing (h : passage.Orderly) (script : Script α) (db : Database)
    (reversible : Bool) : passage.Settles script db reversible := by
  rcases ends h script db reversible with
    ⟨hcommits, a, c, changed, hplayed, hworking, hrun⟩ | ⟨raw, left, hraises, hleaves, hrun⟩
  · constructor
    case commits => exact ⟨fun _ => hcommits, fun _ => ⟨a, by rw [hrun]⟩⟩
    case keeps =>
      intro b hb
      rw [hrun] at hb ⊢
      rw [hplayed]
      exact ⟨hb, hworking⟩
    case undisturbed =>
      intro hscript _ _
      rw [hplayed]
      exact (hscript.play_of_ok hplayed).1.symm
    case stopped =>
      intro m hm hdone
      exact absurd hcommits.wanted (Context.causeAt_mono hm hdone)
    all_goals
      rw [hrun]
      intros
      contradiction
  · have hfailed : ∀ a, (passage.run script db reversible).1 ≠ .ok a := by
      rw [hrun]
      exact fun a ha => nomatch ha
    constructor
    case commits =>
      exact ⟨fun ⟨a, ha⟩ => absurd ha (hfailed a),
        fun hcommits => absurd hcommits hraises.not_commits⟩
    case keeps => exact fun a ha => absurd ha (hfailed a)
    case undisturbed => exact fun _ a ha => absurd ha (hfailed a)
    case stopped => exact fun _ _ _ => hfailed
    case leaves =>
      rw [hrun]
      exact fun _ _ => hleaves
    case nothing =>
      rintro rfl hheeds _ _
      rw [hrun]
      exact hleaves.eq_of_heeds hheeds
    case tells =>
      intro e he
      rw [hrun] at he
      obtain rfl := Except.error.inj he
      refine ⟨raw, hraises, fun hkind => told_of_isInterruption_eq_false hkind _,
        fun hkind hdone => told_of_isInterruption hkind hdone, ?_⟩
      intro hkind hpending
      rw [hpending]
      exact ⟨rfl, hraises.exists_played h hkind hpending⟩

/-- A passage that waits for a connection and for the lock, and whose deadline passes during its
second statement. -/
def overdue : Passage where
  context := ⟨[0], some 5⟩
  mode := .write
  serializeWrites := true
  start := {}
  tries :=
    [({}, ⟨0, .free⟩), ({ now := 1 }, ⟨1, .held⟩), ({ now := 2 }, ⟨0, .held⟩),
      ({ now := 3 }, ⟨0, .free⟩), ({ now := 4 }, ⟨0, .held⟩)]
  breaks := [none, some { fault := .interrupted, severs := true }]
  committing := { now := 6 }
  returning := { now := 6 }

/-- Writes the first row of a key. -/
def writing (name : String) : Database → Except Fault (Int × Database) :=
  Script.onLog (Log.insert · (.ofUser name true false 0 0 0 [1] []))

/-- Two rows. -/
def pair : Script Int := .exec (writing "a") .ofFault fun _ => .exec (writing "b") .ofFault .finish

/-- The first of two rows was written, and is gone. -/
theorem exists_all_or_nothing : overdue.Orderly ∧ pair.Heeds ∧
    (pair.play [] (Connection.begun { stored := { log := some {} } })).1 = .ok 2 ∧
    (pair.play [none] (Connection.begun { stored := { log := some {} } })).2.visible ≠
      { log := some {} } ∧
    overdue.run pair { log := some {} } = (.error .deadlineExceeded, { log := some {} }) := by
  have horderly : overdue.Orderly := ⟨by decide, Or.inl ⟨true, by decide⟩, fun _ => by decide⟩
  have hheeds : pair.Heeds := ⟨fun _ => trivial, fun _ => ⟨fun _ => trivial, fun _ => trivial⟩⟩
  have hsettled := all_or_nothing horderly pair { log := some {} } true
  have hrun : (overdue.run pair { log := some {} }).1 = .error .deadlineExceeded := by
    decide +kernel
  have hkept := hsettled.nothing rfl hheeds _ hrun
  exact ⟨horderly, hheeds, by decide +kernel, by decide +kernel, Prod.ext hrun hkept⟩

/-- Writes a row, and whatever comes of it a second one. -/
def heedless : Script Int :=
  .step (writing "a") fun _ => .exec (writing "b") .ofFault .finish

/-- Writes a row, and fails. -/
def failing : Script Int := .exec (writing "a") .ofFault fun _ => .fail (.internal "boom")

/-- The names in the log of a content. -/
def namesOf (db : Database) : List Cell := (db.log.getD {}).rows.map Row.name

/-- Something is left of a transaction that failed: the second row of a script that goes on after
the first one was interrupted, which ended the transaction; and whatever was written in memory
without a journal. -/
theorem exists_left_of_error :
    (∃ passage : Passage, passage.Orderly ∧
      passage.breaks = [some { fault := .interrupted, severs := true }] ∧
      (passage.run heedless { log := some {} }).1 = .error .deadlineExceeded ∧
      namesOf (passage.run heedless { log := some {} }).2 = [.text "b"]) ∧
    ∃ passage : Passage, passage.Orderly ∧ passage.breaks = [] ∧
      (passage.run failing { log := some {} } false).1 = .error (.internal "boom") ∧
      namesOf (passage.run failing { log := some {} } false).2 = [.text "a"] := by
  refine ⟨⟨{ overdue with breaks := [some { fault := .interrupted, severs := true }] }, ?_, rfl, ?_,
    ?_⟩, ⟨{ overdue with context := ⟨[0], none⟩, breaks := [] }, ?_, rfl, ?_, ?_⟩⟩
  · exact ⟨by decide, Or.inl ⟨true, by decide⟩, fun _ => by decide⟩
  · decide +kernel
  · decide +kernel
  · exact ⟨by decide, Or.inl ⟨true, by decide⟩, by decide⟩
  · decide +kernel
  · decide +kernel

end Passage

end RevisionLog
