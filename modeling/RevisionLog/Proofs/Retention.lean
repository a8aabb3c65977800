import RevisionLog.Proofs.Atomicity
import RevisionLog.Proofs.Batches

/-!
# Compactors side by side

A compactor reads the current revision, then the watermark, and then raises the watermark step by
step, each in a transaction of its own. What it has read is old by the time it is used: others write
in between, and other compactors go further or less far. Still no compactor ever takes away a
revision that is to be retained, and none is refused for going too far. What carries this is that
the current revision and the watermark never fall, so that an old reading is on the safe side.

* `Sweep` — what a compactor has still to do; `Sweep.program` is all of it.
* `Sweeper` — a compactor on its way; `Sweeper.go` is its next transaction.
* `Sweeper.OnCourse` — what it has read and has still to do goes with the log as it is now.
* `Sweeping` — the file, the compactors, and what they and the clients do next.
* `Log.Start.sweeps_retain` — the watermark keeps its distance in every run.
-/

namespace RevisionLog

open Store

/-! ## Transactions whose work goes well -/

/-- Whether an error is that a revision is ahead of the current one. -/
def Error.isFuture : Error → Bool
  | futureRevision _ _ => true
  | _ => false

theorem Error.isFuture_ofFault (fault : Fault) : (Error.ofFault fault).isFuture = false := by
  cases fault <;> rfl

theorem Cause.isFuture_toError (cause : Cause) : cause.toError.isFuture = false := by
  cases cause <;> rfl

theorem Transaction.isFuture_told {e : Error} (he : e.isFuture = false) (returning : Option Cause) :
    (told returning e).isFuture = false := by
  unfold told
  split
  · split
    · exact Cause.isFuture_toError _
    · exact he
  · exact he

/-- A transaction whose work goes well does it, or is stopped from outside. -/
theorem Passage.run_ofWork {α : Type} {passage : Passage} {work : Work α} {db db' : Database}
    {a : α} (h : passage.Orderly) (hwork : work.carryOut db = (.ok a, db')) :
    passage.run (.ofWork work) db = (.ok a, db') ∨
      ∃ e, passage.run (.ofWork work) db = (.error e, db) ∧ e.isFuture = false := by
  have hscript := Script.propagates_ofWork work
  rcases ends h (.ofWork work) db true with ⟨-, b, c, changed, -, -, hrun⟩ |
    ⟨raw, left, hraises, hleaves, hrun⟩
  · have hkept := kept_of_run_eq_ok h hscript hrun
    rw [Script.kept_ofWork, Work.kept_eq_ok, Connection.visible_begun, hwork] at hkept
    cases hkept
    exact Or.inl hrun
  · rw [hleaves.eq_of_heeds hscript.heeds] at hrun
    refine Or.inr ⟨_, hrun, Transaction.isFuture_told ?_ _⟩
    cases hraises with
    | refused => exact Cause.isFuture_toError _
    | stopped => exact Cause.isFuture_toError _
    | exhausted => rfl
    | unbegun => exact Error.isFuture_ofFault _
    | late => exact Cause.isFuture_toError _
    | uncommitted => exact Error.isFuture_ofFault _
    | severed => rfl
    | failed _ hplayed =>
      -- the work itself goes well, so a statement of it was broken off
      rw [Passage.played, Script.ofWork] at hplayed
      rcases hhead : passage.breaks.head?.join with _ | b
      · rw [Script.play_exec hhead, Connection.visible_begun, hwork] at hplayed
        cases hplayed
      · rw [Script.play_exec_of_broken hhead] at hplayed
        cases hplayed
        exact Error.isFuture_ofFault b.fault

/-! ## What a compactor does -/

/-- What a compactor has still to do: it stops before every transaction, so that others can
go first. -/
inductive Sweep (α : Type) : Type
  | ended (a : α)
  | current (next : Except Error Int → Sweep α)
  | watermark (next : Except Error Int → Sweep α)
  | compact (revision : Int) (next : Except Error Nat → Sweep α)

namespace Sweep

variable {α β : Type}

protected def bind : Sweep α → (α → Sweep β) → Sweep β
  | ended a, f => f a
  | current next, f => .current fun outcome => (next outcome).bind f
  | watermark next, f => .watermark fun outcome => (next outcome).bind f
  | compact revision next, f => .compact revision fun outcome => (next outcome).bind f

instance : Monad Sweep where
  pure := .ended
  bind := .bind

/-- What a run came to, once it is over. -/
def outcome? : Sweep α → Option α
  | ended a => some a
  | _ => none

/-- Every question and every compaction is a transaction. -/
def target : Compaction.Target Sweep where
  currentRevision := .current .ended
  watermark := .watermark .ended
  compact revision := .compact revision .ended

/-- One run of a compactor. -/
def program (settings : CompactionSettings) : Sweep Compaction.Outcome :=
  Compaction.run target settings

/-- A run up to a revision, which begins with the watermark. -/
def upTo (settings : CompactionSettings) (revision : Int) : Sweep Compaction.Outcome :=
  Compaction.compactTo target settings revision

/-- The way from a watermark to a revision. -/
def onward (settings : CompactionSettings) (revision watermark : Int) (removed : Nat) :
    Sweep Compaction.Outcome :=
  Compaction.advance target settings revision watermark removed

variable {settings : CompactionSettings}

/-- A run begins with the current revision. -/
theorem program_eq (settings : CompactionSettings) : program settings = .current fun outcome =>
    match outcome with
    | .error e => .ended (.failed e)
    | .ok reading =>
      match Revision.sub? reading settings.retained with
      | none => .ended .overflow
      | some revision => upTo settings revision := rfl

theorem upTo_eq (settings : CompactionSettings) (revision : Int) :
    upTo settings revision = .watermark fun outcome =>
    match outcome with
    | .error e => .ended (.failed e)
    | .ok reading => onward settings revision reading 0 := rfl

/-- The way is over, or its next step is a compaction that goes no further than the revision, or the
sum of that step leaves the range of revisions. -/
theorem onward_cases (settings : CompactionSettings) (revision watermark : Int) (removed : Nat) :
    (revision ≤ watermark ∧
      onward settings revision watermark removed = .ended (.removed removed)) ∨
    (∃ next ≤ revision, onward settings revision watermark removed = .compact next fun outcome =>
      match outcome with
      | .error e => .ended (.failed e)
      | .ok n => onward settings revision next (removed + n)) ∨
    onward settings revision watermark removed = .ended .overflow := by
  rcases Int.lt_or_le watermark revision with hlt | hle
  · by_cases hsum : Revision.InRange (watermark + Compaction.step settings)
    · refine Or.inr
        (Or.inl ⟨_, Int.min_le_right (watermark + Compaction.step settings) revision, ?_⟩)
      rw [onward, Compaction.advance_of_lt target hlt hsum]
      rfl
    · refine Or.inr (Or.inr ?_)
      rw [onward, Compaction.advance, if_pos hlt]
      split
      · rfl
      · next hsome => exact absurd (Revision.add?_eq_some.1 hsome).1 hsum
  · refine Or.inl ⟨hle, ?_⟩
    rw [onward, Compaction.advance, if_neg (Int.not_lt.2 hle)]
    rfl

end Sweep

/-! ## Logs that go on -/

namespace Log

/-- The second log is the first one some time later. Nothing is taken back, and the watermark is as
low as it was or keeps a distance from the current revision. -/
structure GoesOn (least : Int) (log log' : Log) : Prop where
  intact : log'.Intact
  current : log.current ≤ log'.current
  floor : log.floor ≤ log'.floor
  distance : log'.floor ≤ max log.floor (log'.current - least)

variable {least : Int} {log log' log'' : Log}

theorem Intact.goesOn_self (h : log.Intact) (least : Int) : log.GoesOn least log where
  intact := h
  current := Int.le_refl _
  floor := Int.le_refl _
  distance := Int.le_max_left _ _

theorem GoesOn.trans (h : log.GoesOn least log') (h' : log'.GoesOn least log'') :
    log.GoesOn least log'' where
  intact := h'.intact
  current := Int.le_trans h.current h'.current
  floor := Int.le_trans h.floor h'.floor
  distance := by
    have hfirst := h.distance
    have hsecond := h'.distance
    have hcurrent := h'.current
    omega

/-- An operation that is no compaction leaves the watermark as it is. -/
theorem floor_step_of_ne {op : Op} {n : Int} (hstep : op.Step log n log')
    (hop : ∀ revision, op ≠ .compact revision) : log'.floor = log.floor := by
  cases hstep with
  | create _ => rfl
  | update _ => rfl
  | delete _ => rfl
  | compacted _ _ => rfl
  | @compact revision _ _ => exact absurd rfl (hop revision)
  | fill _ => rfl

/-- The transaction of an operation that is no compaction. -/
theorem Intact.goesOn_operate (h : log.Intact) (least : Int) {passage : Passage} {op : Op}
    {db : Database} (hdb : db.log = some log) (hpassage : passage.Orderly)
    (hop : ∀ revision, op ≠ .compact revision) :
    ∃ log', log.GoesOn least log' ∧ (passage.run (.ofWork op.work) db).2.log = some log' := by
  rcases hrun : passage.run (.ofWork op.work) db with ⟨e | n, after⟩
  · obtain rfl := Passage.eq_of_run_eq_error hpassage (Script.propagates_ofWork _) hrun
    exact ⟨log, h.goesOn_self least, hdb⟩
  · have hwork := Passage.kept_of_run_eq_ok hpassage (Script.propagates_ofWork _) hrun
    rw [Script.kept_ofWork, Work.kept_eq_ok, Connection.visible_begun] at hwork
    rcases hon : op.on log with e | ⟨k, log'⟩
    · rw [Op.work, Work.carryOut_onLog_of_error hdb hon] at hwork
      cases hwork
    · rw [Op.work, Work.carryOut_onLog_of_ok hdb hon] at hwork
      cases hwork
      have hstep := h.step_of_on hon
      have hfloor := floor_step_of_ne hstep hop
      exact ⟨log', ⟨h.step hstep, h.current_step hstep, by omega, by omega⟩, rfl⟩

end Log

/-! ## Compactors on their way -/

/-- A compactor on its way. -/
structure Sweeper where
  settings : CompactionSettings
  /-- the current revision that it read -/
  read : Option Int := none
  rest : Sweep Compaction.Outcome

namespace Sweeper

/-- A compactor before its first transaction. -/
def begin (settings : CompactionSettings) : Sweeper := { settings, rest := .program settings }

/-- The next transaction of a compactor, which goes so. -/
def go (s : Sweeper) (passage : Passage) (db : Database) : Sweeper × Database :=
  match s.rest with
  | .ended _ => (s, db)
  | .current next =>
    let (outcome, db) := passage.run (.ofWork (Work.askLog Store.currentRevision)) db
    ({ s with read := outcome.toOption, rest := next outcome }, db)
  | .watermark next =>
    let (outcome, db) := passage.run (.ofWork (Work.askLog Store.compactedTo metaTable)) db
    ({ s with rest := next outcome }, db)
  | .compact revision next =>
    let (outcome, db) := passage.run (.ofWork (Work.onLog (Store.compact · revision))) db
    ({ s with rest := next outcome }, db)

/-- How far a compactor has come, and what it has read on the way: a current revision that has been
reached since, and a watermark that has been reached as well. -/
inductive Reached (log : Log) (settings : CompactionSettings) :
    Option Int → Sweep Compaction.Outcome → Prop
  | begun : Reached log settings none (.program settings)
  | bounded {current : Int} :
    current ≤ log.current →
      Reached log settings (some current) (.upTo settings (current - settings.retained))
  | onward {current watermark : Int} {removed : Nat} :
    current ≤ log.current → watermark ≤ log.floor →
      Reached log settings (some current)
        (.onward settings (current - settings.retained) watermark removed)
  /-- a transaction was stopped from outside -/
  | failed {read : Option Int} {e : Error} : e.isFuture = false →
      Reached log settings read (.ended (.failed e))
  | overflow {read : Option Int} : Reached log settings read (.ended .overflow)

/-- What a compactor has read and has still to do goes with the log as it is now, and it retains
enough. -/
structure OnCourse (least : Int) (log : Log) (s : Sweeper) : Prop where
  retains : least ≤ s.settings.retained
  reached : Reached log s.settings s.read s.rest

variable {least : Int} {log log' : Log} {s : Sweeper} {passage : Passage} {db : Database}

/-- What has been reached stays reached. -/
theorem Reached.mono {settings : CompactionSettings} {read : Option Int}
    {rest : Sweep Compaction.Outcome} (h : Reached log settings read rest)
    (hcurrent : log.current ≤ log'.current) (hfloor : log.floor ≤ log'.floor) :
    Reached log' settings read rest := by
  cases h with
  | begun => exact .begun
  | bounded hread => exact .bounded (Int.le_trans hread hcurrent)
  | onward hread hwatermark =>
    exact .onward (Int.le_trans hread hcurrent) (Int.le_trans hwatermark hfloor)
  | failed he => exact .failed he
  | overflow => exact .overflow

theorem OnCourse.mono (h : s.OnCourse least log) (hgoes : log.GoesOn least log') :
    s.OnCourse least log' :=
  ⟨h.retains, h.reached.mono hgoes.current hgoes.floor⟩

/-- A compactor does not end because a revision is ahead of the current one. -/
theorem Reached.isFuture_eq_false {settings : CompactionSettings} {read : Option Int} {e : Error}
    (h : Reached log settings read (.ended (.failed e))) : e.isFuture = false := by
  generalize hrest : Sweep.ended (Compaction.Outcome.failed e) = rest at h
  cases h with
  | begun => cases hrest
  | bounded => cases hrest
  | onward =>
    rcases Sweep.onward_cases settings _ _ _ with ⟨-, honward⟩ | ⟨next, -, honward⟩ | honward <;>
      rw [honward] at hrest <;> cases hrest
  | failed he =>
    cases hrest
    exact he
  | overflow => cases hrest

/-- A compactor that ends well has brought the watermark to where it was to go. -/
theorem Reached.le_floor {settings : CompactionSettings} {read : Option Int} {n : Nat}
    (h : Reached log settings read (.ended (.removed n))) :
    ∃ current, read = some current ∧ current - settings.retained ≤ log.floor := by
  generalize hrest : Sweep.ended (Compaction.Outcome.removed n) = rest at h
  cases h with
  | begun => cases hrest
  | bounded => cases hrest
  | onward _ hwatermark =>
    rcases Sweep.onward_cases settings _ _ _ with ⟨hle, -⟩ | ⟨next, -, honward⟩ | honward
    · exact ⟨_, rfl, Int.le_trans hle hwatermark⟩
    · rw [honward] at hrest
      cases hrest
    · rw [honward] at hrest
      cases hrest
  | failed => cases hrest
  | overflow => cases hrest

/-- **A compactor keeps its distance.** Its next transaction lets the log go on, and what it has
still to do goes with the log after that. -/
theorem OnCourse.go (h : s.OnCourse least log) (hleast : 0 ≤ least) (hlog : log.Intact)
    (hdb : db.log = some log) (hpassage : passage.Orderly) :
    ∃ log', log.GoesOn least log' ∧ (s.go passage db).2.log = some log' ∧
        (s.go passage db).1.OnCourse least log' := by
  obtain ⟨hretains, hreached⟩ := h
  obtain ⟨settings, read, rest⟩ := s
  -- where only a question is asked, or nothing is done, the log is the same
  have hsame : ∀ {read : Option Int} {rest : Sweep Compaction.Outcome} {after : Database},
      after.log = some log → Reached log settings read rest →
      ∃ log', log.GoesOn least log' ∧ after.log = some log' ∧
        OnCourse least log' ⟨settings, read, rest⟩ :=
    fun hafter hnext => ⟨log, hlog.goesOn_self least, hafter, hretains, hnext⟩
  dsimp only at hretains hreached
  cases hreached with
  | begun =>
    simp only [Sweeper.go, Sweep.program_eq]
    have hwork : (Work.askLog Store.currentRevision).carryOut db = _ :=
      Work.carryOut_askLog hdb hlog.toTidy.store_currentRevision
    rcases Passage.run_ofWork hpassage hwork with hrun | ⟨e, hrun, he⟩ <;> rw [hrun]
    · dsimp only
      split
      · exact hsame hdb .overflow
      · next revision hrevision =>
        obtain ⟨-, rfl⟩ := Revision.sub?_eq_some.1 hrevision
        exact hsame hdb (.bounded (Int.le_refl _))
    · exact hsame hdb (.failed he)
  | bounded hread =>
    simp only [Sweeper.go, Sweep.upTo_eq]
    have hwork : (Work.askLog Store.compactedTo metaTable).carryOut db = _ :=
      Work.carryOut_askLog hdb hlog.toTidy.store_compactedTo
    rcases Passage.run_ofWork hpassage hwork with hrun | ⟨e, hrun, he⟩ <;> rw [hrun]
    · exact hsame hdb (.onward hread (Int.le_refl _))
    · exact hsame hdb (.failed he)
  | @onward current watermark removed hread hwatermark =>
    rcases Sweep.onward_cases settings (current - settings.retained) watermark removed with
      ⟨-, honward⟩ | ⟨next, hnext, honward⟩ | honward
    · simp only [Sweeper.go, honward]
      exact hsame hdb (honward ▸ .onward hread hwatermark)
    · simp only [Sweeper.go, honward]
      have hle : next ≤ log.current := by omega
      have hwork : (Work.onLog (Store.compact · next)).carryOut db = _ :=
        Work.carryOut_onLog_of_ok hdb (hlog.toTidy.store_compact_eq hle)
      rcases Passage.run_ofWork hpassage hwork with hrun | ⟨e, hrun, he⟩ <;> rw [hrun]
      · -- the watermark is now at least where this step was to go
        have hfloor := hlog.floor_compacted next
        have hcurrent := hlog.current_compacted hle
        refine ⟨_, ⟨hlog.compacted hle, by omega, by omega, by omega⟩, rfl, hretains, .onward ?_ ?_⟩
        · omega
        · omega
      · exact hsame hdb (.failed he)
    · simp only [Sweeper.go, honward]
      exact hsame hdb .overflow
  | failed he => exact hsame hdb (.failed he)
  | overflow => exact hsame hdb .overflow

end Sweeper

/-! ## The file, the compactors and the clients -/

/-- A file and the compactors that work on it. -/
structure Sweeping where
  db : Database
  sweepers : List Sweeper := []

namespace Sweeping

/-- What happens next. -/
inductive Move
  /-- a compactor begins a run -/
  | begin (settings : CompactionSettings)
  /-- the next transaction of a compactor, which goes so -/
  | transact (i : Nat) (passage : Passage)
  /-- an operation of a client, whose transaction goes so -/
  | operate (passage : Passage) (op : Op)

namespace Move

/-- A transaction goes as transactions can. -/
def Orderly : Move → Prop
  | begin _ => True
  | transact _ passage => passage.Orderly
  | operate passage _ => passage.Orderly

/-- Every compactor retains so many revisions, and nobody else compacts. -/
def Retains (least : Int) : Move → Prop
  | begin settings => least ≤ settings.retained
  | transact _ _ => True
  | operate _ op => ∀ revision, op ≠ .compact revision

end Move

def step (s : Sweeping) : Move → Sweeping
  | .begin settings => { s with sweepers := s.sweepers ++ [.begin settings] }
  | .transact i passage =>
    match s.sweepers[i]? with
    | some sweeper =>
      let (sweeper, db) := sweeper.go passage s.db
      { db, sweepers := s.sweepers.set i sweeper }
    | none => s
  | .operate passage op => { s with db := (passage.run (.ofWork op.work) s.db).2 }

def run (s : Sweeping) (moves : List Move) : Sweeping := moves.foldl step s

/-- Everything that the compactors have read and have still to do goes with the log as it is now. -/
structure Kept (least : Int) (log : Log) (s : Sweeping) : Prop where
  log_eq : s.db.log = some log
  intact : log.Intact
  course : ∀ sweeper ∈ s.sweepers, sweeper.OnCourse least log

variable {least : Int} {log : Log} {s : Sweeping} {m : Move} {moves : List Move}

/-- **A move lets the log go on**, and what is read and still to be done goes with it. -/
theorem Kept.step (h : s.Kept least log) (hleast : 0 ≤ least) (horderly : m.Orderly)
    (hretains : m.Retains least) : ∃ log', log.GoesOn least log' ∧ (s.step m).Kept least log' := by
  cases m with
  | begin settings =>
    refine ⟨log, h.intact.goesOn_self least, h.log_eq, h.intact, ?_⟩
    intro sweeper hsweeper
    rcases List.mem_append.1 hsweeper with hsweeper | hsweeper
    · exact h.course sweeper hsweeper
    · rw [List.mem_singleton.1 hsweeper]
      exact ⟨hretains, .begun⟩
  | transact i passage =>
    simp only [Sweeping.step]
    split
    · next sweeper hi =>
      have hsweeper := h.course sweeper (List.mem_of_getElem? hi)
      obtain ⟨log', hgoes, hlog, hcourse⟩ := hsweeper.go hleast h.intact h.log_eq horderly
      refine ⟨log', hgoes, hlog, hgoes.intact, ?_⟩
      intro other hother
      rcases List.mem_or_eq_of_mem_set hother with hother | rfl
      · exact (h.course other hother).mono hgoes
      · exact hcourse
    · exact ⟨log, h.intact.goesOn_self least, h⟩
  | operate passage op =>
    obtain ⟨log', hgoes, hlog⟩ := h.intact.goesOn_operate least h.log_eq horderly hretains
    exact ⟨log', hgoes, hlog, hgoes.intact,
      fun sweeper hsweeper => (h.course sweeper hsweeper).mono hgoes⟩

/-- **A run lets the log go on.** -/
theorem Kept.run (h : s.Kept least log) (hleast : 0 ≤ least)
    (hmoves : ∀ m ∈ moves, m.Orderly ∧ m.Retains least) :
    ∃ log', log.GoesOn least log' ∧ (s.run moves).Kept least log' := by
  induction moves generalizing s log with
  | nil => exact ⟨log, h.intact.goesOn_self least, h⟩
  | cons m moves ih =>
    obtain ⟨horderly, hretains⟩ := hmoves m List.mem_cons_self
    obtain ⟨between, hfirst, hstep⟩ := h.step hleast horderly hretains
    obtain ⟨log', hrest, hrun⟩ := ih hstep fun n hn => hmoves n (List.mem_cons_of_mem m hn)
    exact ⟨log', hfirst.trans hrest, hrun⟩

end Sweeping

open Sweeping

/-- **Compactors retain what they are to retain.** In a state that a run reaches compactors begin,
each of which retains at least so many revisions. Their transactions come in any order between each
other and between those of clients, who write but do not compact, and any of them may be stopped.
Then at every moment the watermark is as low as at first, or so many revisions below the current
one. It never falls. No compactor is told that a revision is ahead of the current one, and one that
ended well has brought the watermark to the current revision that it read, less what it retains. -/
theorem Log.Start.sweeps_retain {log : Log} (h : log.Start) (ops : List Op) {db : Database}
    (hdb : db.log = some (log.play ops)) {initial : Int}
    (hinitial : Store.compactedTo (log.play ops) = .ok initial)
    {least : Int} (hleast : 0 ≤ least) {moves later : List Move}
    (hmoves : ∀ m ∈ moves ++ later, m.Orderly ∧ m.Retains least) :
    ∃ s left watermark current, Sweeping.run { db } moves = s ∧ s.db.log = some left ∧
      Store.compactedTo left = .ok watermark ∧ Store.currentRevision left = .ok current ∧
      watermark ≤ max initial (current - least) ∧
      (∀ sweeper ∈ s.sweepers,
        (∀ requested known, sweeper.rest ≠ .ended (.failed (.futureRevision requested known))) ∧
        ∀ n, sweeper.rest = .ended (.removed n) →
          ∃ read, sweeper.read = some read ∧ read - sweeper.settings.retained ≤ watermark) ∧
      ∃ last watermark', (s.run later).db.log = some last ∧
        Store.compactedTo last = .ok watermark' ∧ watermark ≤ watermark' := by
  have hintact := h.intact.play ops
  obtain rfl : initial = (log.play ops).floor :=
    Except.ok.inj (hinitial.symm.trans hintact.toTidy.store_compactedTo)
  have hbegin : Kept least (log.play ops) { db } :=
    ⟨hdb, hintact, fun sweeper hsweeper => absurd hsweeper List.not_mem_nil⟩
  obtain ⟨left, hgoes, hkept⟩ := hbegin.run hleast fun m hm =>
    hmoves m (List.mem_append_left later hm)
  obtain ⟨last, hlater, hend⟩ := hkept.run hleast fun m hm =>
    hmoves m (List.mem_append_right moves hm)
  refine ⟨_, left, _, _, rfl, hkept.log_eq, hkept.intact.toTidy.store_compactedTo,
    hkept.intact.toTidy.store_currentRevision, hgoes.distance, ?_, last, _, hend.log_eq,
    hend.intact.toTidy.store_compactedTo, hlater.floor⟩
  intro sweeper hsweeper
  have hreached := (hkept.course sweeper hsweeper).reached
  refine ⟨?_, ?_⟩
  · intro requested known hrest
    rw [hrest] at hreached
    cases hreached.isFuture_eq_false
  · intro n hrest
    rw [hrest] at hreached
    exact hreached.le_floor

/-- A transaction in whose way nothing stands. -/
def Passage.open : Passage where
  context := ⟨[0], none⟩
  mode := .write
  start := {}
  tries := [({}, ⟨1, .free⟩), ({}, ⟨0, .free⟩), ({}, ⟨0, .free⟩)]
  committing := {}
  returning := {}

/-- Two compactors read the same current revision, and a client writes behind their backs. The
second one retains more and comes too late with both of its steps; it ends well all the same. Later
a third one goes further. -/
theorem Log.Start.exists_sweeps_retain :
    ∃ (log : Log) (ops : List Op) (db : Database) (moves later : List Move),
    log.Start ∧
    ops = [.create "a" [1] 0, .update "a" [2] 1 0, .update "a" [3] 2 0, .update "a" [4] 3 0] ∧
    db.log = some (log.play ops) ∧ Store.compactedTo (log.play ops) = .ok 0 ∧ (0 : Int) ≤ 1 ∧
    moves = [.begin { retained := 1, batchSize := 2 }, .begin { retained := 2, batchSize := 0 },
      .transact 0 .open, .transact 1 .open, .operate .open (.update "a" [5] 4 0), .transact 1 .open,
      .transact 0 .open, .transact 0 .open,
      .transact 1 .open, .transact 0 .open, .transact 1 .open] ∧
    later = [.begin { retained := 1 }, .transact 2 .open, .transact 2 .open, .transact 2 .open] ∧
    (∀ m ∈ moves ++ later, m.Orderly ∧ m.Retains 1) ∧
    (Sweeping.run { db } moves).sweepers.map (·.rest.outcome?) =
      [some (.removed 2), some (.removed 0)] ∧
    ∃ s left watermark current, Sweeping.run { db } moves = s ∧ s.db.log = some left ∧
      Store.compactedTo left = .ok watermark ∧ Store.currentRevision left = .ok current ∧
      watermark ≤ max 0 (current - 1) ∧
      (∀ sweeper ∈ s.sweepers,
        (∀ requested known, sweeper.rest ≠ .ended (.failed (.futureRevision requested known))) ∧
        ∀ n, sweeper.rest = .ended (.removed n) →
          ∃ read, sweeper.read = some read ∧ read - sweeper.settings.retained ≤ watermark) ∧
      ∃ last watermark', (s.run later).db.log = some last ∧
        Store.compactedTo last = .ok watermark' ∧ watermark ≤ watermark' := by
  let ops : List Op :=
    [.create "a" [1] 0, .update "a" [2] 1 0, .update "a" [3] 2 0, .update "a" [4] 3 0]
  let moves : List Move :=
    [.begin { retained := 1, batchSize := 2 }, .begin { retained := 2, batchSize := 0 },
      .transact 0 .open, .transact 1 .open, .operate .open (.update "a" [5] 4 0),
      .transact 1 .open, .transact 0 .open, .transact 0 .open, .transact 1 .open,
      .transact 0 .open, .transact 1 .open]
  let later : List Move :=
    [.begin { retained := 1 }, .transact 2 .open, .transact 2 .open, .transact 2 .open]
  have hopen : Passage.open.Orderly := ⟨by decide, Or.inl ⟨false, by decide⟩, by decide⟩
  have hmoves : ∀ m ∈ moves ++ later, m.Orderly ∧ m.Retains 1 := by
    simp [moves, later, Move.Orderly, Move.Retains, hopen]
  have hzero : Store.compactedTo (play { indexing := .linkFirst } ops) = .ok 0 := by decide +kernel
  have hends :
    (Sweeping.run { db := { log := some (play { indexing := .linkFirst } ops) } }
      moves).sweepers.map
      (·.rest.outcome?) = [some (.removed 2), some (.removed 0)] := by decide +kernel
  exact ⟨_, ops, { log := some _ }, moves, later, .empty, rfl, rfl, hzero, by decide, rfl, rfl,
    hmoves, hends, Start.empty.sweeps_retain ops rfl hzero (by decide) hmoves⟩

end RevisionLog
