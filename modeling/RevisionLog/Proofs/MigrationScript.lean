import RevisionLog.Proofs.Replay
import RevisionLog.Proofs.Scripts

/-!
# The statements of a migration

A migration statement by statement: the version is read, an older table is looked for, its rows are
read and copied one by one, the indices are dropped and made anew, and the version is recorded. Each
statement may be broken off, and then the step is told in which that happened.

* `Migration.script` — the statements; `Migration.kept_script` — they are the work of a migration.
* `Migration.tells_script` — whatever a migration fails with is told as such.
* `Migration.of_script` — what a migration leaves that went well.
-/

namespace RevisionLog

open Script

/-! ## The statements -/

/-- Creates the tables where they are not yet there: the one of the rows, and the one of the
watermark with it. -/
def createScript : Script Unit :=
  exec (fun db => .ok ((), { db with log := some (db.log.getD {}) })) .ofFault fun _ =>
    exec (fun db => .ok ((), db)) .ofFault finish

theorem propagates_createScript : createScript.Propagates :=
  propagates_exec fun _ => propagates_exec fun _ => trivial

namespace Migration

/-- How a step tells that a statement of it was refused or broken off. -/
def tell (step : MigrationStep) (fault : Fault) : Error :=
  let cause := Error.ofFault fault
  if cause.isCancellation then cause else .migrationStep step cause

variable {α : Type}

/-- Copies rows, and goes on with how many there were. -/
def copyRows (next : Nat → Script α) : (copied : Nat) → Option Chain → List LegacyEntry → Script α
  | copied, _, [] => next copied
  | copied, chain, e :: rest =>
    let own := Chain.ofName? chain e.name
    match draft? own e with
    | none => copyRows next copied chain rest
    | some d =>
      exec (onLog (·.insert d)) (tell (.copyKey e.name)) fun id =>
        copyRows next (copied + 1) (some (extend own e id)) rest

/-- Drops the indices and makes them anew, and records the version. -/
def conclude (status : MigrationStatus) : Script MigrationStatus :=
  -- the index of names, which comes and goes with the other one
  exec (fun db => .ok ((), db)) (tell .rebuildIndices) fun _ =>
  exec (fun db => .ok ((), { db with log := db.log.map ({ · with indexing := .unindexed }) }))
    (tell .rebuildIndices) fun _ =>
  exec (fun db => if db.log.isSome then .ok ((), db) else .error (.noTable ("main." ++ logTable)))
    (tell .rebuildIndices) fun _ =>
  -- the index of links
  exec (onLog fun log => (log.reindex .linkFirst).map ((), ·)) (tell .rebuildIndices) fun _ =>
  exec (fun db => .ok ((), { db with version })) (tell .recordVersion) fun _ =>
  finish status

/-- Reads the rows of an older table. -/
def readRows (db : Database) : Except Fault (List LegacyEntry × Database) :=
  match db.legacy with
  | none => .error (.noTable legacyTable)
  | some legacy => legacy.read.map (·, db)

/-- Copies an older table, if there are no rows yet, and brings the migration to its end. -/
def copyOver : Script MigrationStatus :=
  exec (onLog fun log => .ok (log.rows.isEmpty, log)) (tell .countRows) fun empty =>
  if empty then
    exec readRows (tell .readLegacy) fun entries =>
    copyRows (fun n => conclude (.migrated n)) 0 none entries
  else conclude .initialized

/-- The statements of a migration. -/
def script (countable : Bool := true) : Script MigrationStatus :=
  exec (fun db => .ok (db.version, db)) (tell .readVersion) fun recorded =>
  if recorded = version then finish .upToDate
  else
    exec (fun db => .ok (if countable then some db.legacy.isSome else none, db))
        (tell .findLegacy) fun found =>
    match found with
    | none => fail (.migration ("cannot determine whether the " ++ legacyTable ++ " table exists"))
    | some false => conclude .initialized
    | some true => copyOver

/-! ## They are the work of a migration -/

variable {db : Database} {c : Connection}

theorem kept_copyRows {log : Log} (hlog : c.visible.log = some log) (next : Nat → Script α)
    (copied : Nat) (chain : Option Chain) (entries : List LegacyEntry) :
    (copyRows next copied chain entries).kept c =
      match copy log chain entries with
      | .error e => .error e
      | .ok (n, log) => (next (copied + n)).kept (c.put { c.visible with log := some log }) := by
  induction entries generalizing c log copied chain with
  | nil =>
    have hsame : c.put { c.visible with log := some log } = c := by
      rw [← hlog]
      exact c.put_visible
    rw [copyRows, copy]
    dsimp only
    rw [hsame]
    rfl
  | cons e rest ih =>
    rw [copyRows, copy]
    dsimp only
    rcases draft? (Chain.ofName? chain e.name) e with _ | d
    · exact ih hlog _ _
    · dsimp only
      rw [kept_exec, onLog, hlog]
      dsimp only
      rcases log.insert d with fault | ⟨id, log'⟩
      · rfl
      · have hlog' : (c.put { c.visible with log := some log' }).visible.log = some log' := by
          rw [Connection.visible_put]
        show (copyRows next (copied + 1) _ rest).kept (c.put { c.visible with log := some log' }) =
          _
        rw [ih hlog']
        simp only [Store.ask, Except.mapError, Connection.visible_put, Connection.put_put]
        rcases copy log' _ rest with e | ⟨n, log''⟩
        · rfl
        · simp only [Except.map, Nat.add_assoc, Nat.add_comm 1]

/-- What is kept of new indices. -/
theorem kept_rebuildIndices :
    rebuildIndices.kept db =
      match db.log with
      | none => .error (tell .rebuildIndices (.noTable ("main." ++ logTable)))
      | some log =>
        match { log with indexing := .unindexed }.reindex .linkFirst with
        | .error fault => .error (tell .rebuildIndices fault)
        | .ok log => .ok ((), { db with log := some log }) := by
  rw [rebuildIndices, Work.kept_bind, Work.kept_get]
  dsimp only
  rcases db.log with _ | log
  · rfl
  · dsimp only
    rcases Log.reindex { log with indexing := .unindexed } .linkFirst with fault | log' <;> rfl

/-- The end of a migration, as work. -/
def ending (status : MigrationStatus) : Work MigrationStatus := do
  rebuildIndices
  modify fun db => { db with version }
  return status

theorem kept_conclude (status : MigrationStatus) (c : Connection) :
    (conclude status).kept c = (ending status).kept c.visible := by
  rw [ending, Work.kept_bind, kept_rebuildIndices]
  simp only [conclude, kept_exec, onLog, Connection.visible_put, Connection.put_put]
  generalize c.visible = db
  obtain ⟨_ | log, recorded, legacy⟩ := db
  · rfl
  · dsimp only [Option.map_some, Option.isSome_some]
    rw [if_pos rfl]
    dsimp only
    rcases Log.reindex { log with indexing := .unindexed } .linkFirst with fault | log'
    · rfl
    · simp only [Except.map, Script.kept, play, Connection.visible_put]
      rfl

/-- What is kept of the copy of an older table. -/
theorem kept_copyLegacy (legacy : Legacy) :
    (copyLegacy legacy).kept db =
      match db.log with
      | none => .error (tell .countRows (.noTable logTable))
      | some log =>
        if log.rows.isEmpty then
          match legacy.read with
          | .error fault => .error (tell .readLegacy fault)
          | .ok entries =>
            match copy log none entries with
            | .error e => .error e
            | .ok (n, log) => .ok (.migrated n, { db with log := some log })
        else .ok (.initialized, db) := by
  rw [copyLegacy, Work.kept_bind, Work.kept_get]
  dsimp only
  rcases db.log with _ | log
  · rfl
  · dsimp only
    split
    · rcases legacy.read with fault | entries
      · rfl
      · show (copyLegacy.liftExcept (.ok entries) >>= _).kept db = _
        rw [Work.kept_bind]
        show (copyLegacy.liftExcept (copy log none entries) >>= _).kept db = _
        rw [Work.kept_bind]
        dsimp only
        rcases copy log none entries with e | ⟨n, log'⟩ <;> rfl
    · rfl

theorem kept_copyOver {legacy : Legacy} (hlegacy : c.visible.legacy = some legacy) :
    copyOver.kept c = (copyLegacy legacy >>= ending).kept c.visible := by
  rw [copyOver, Work.kept_bind, kept_copyLegacy, kept_exec, onLog]
  rcases hlog : c.visible.log with _ | log
  · rfl
  · have hsame : { c.visible with log := some log } = c.visible := by rw [← hlog]
    dsimp only [Except.map]
    rw [hsame, Connection.put_visible]
    by_cases hempty : log.rows.isEmpty = true
    · rw [if_pos hempty, if_pos hempty, kept_exec, readRows, hlegacy]
      dsimp only
      rcases legacy.read with fault | entries
      · rfl
      · dsimp only [Except.map]
        rw [Connection.put_visible, kept_copyRows hlog]
        rcases copy log none entries with e | ⟨n, log'⟩
        · rfl
        · dsimp only
          rw [Nat.zero_add, kept_conclude, Connection.visible_put, hlegacy]
    · rw [if_neg hempty, if_neg hempty]
      exact kept_conclude .initialized c

/-- **The statements of a migration are its work.** -/
theorem kept_script (countable : Bool) (c : Connection) :
    (script countable).kept c = (run countable).kept c.visible := by
  rw [script, run, kept_exec, Work.kept_bind, Work.kept_get]
  dsimp only
  rw [Connection.put_visible]
  by_cases hversion : c.visible.version = version
  · rw [if_pos hversion, if_pos hversion]
    rfl
  · rw [if_neg hversion, if_neg hversion, kept_exec]
    rcases countable
    · rfl
    · dsimp only [if_true]
      rw [Connection.put_visible]
      rcases hlegacy : c.visible.legacy with _ | legacy
      · exact kept_conclude .initialized c
      · exact kept_copyOver hlegacy

end Migration

/-! ## What it tells -/

/-- Whether an error is told as one of a migration. -/
def Error.isMigration : Error → Bool
  | .migration _ => true
  | .migrationStep _ _ => true
  | _ => false

theorem Error.isInterruption_of_isMigration {e : Error} (h : e.isMigration = true) :
    e.isInterruption = false := by
  cases e <;> first | rfl | cases h

/-! ### Nothing but the engine interrupts a statement -/

namespace Script

theorem map_ne_interrupted {β γ : Type} {answer : Except Fault β} (f : β → γ)
    (h : answer ≠ .error .interrupted) : answer.map f ≠ .error .interrupted := by
  rcases answer with fault | b
  · simpa [Except.map] using h
  · simp [Except.map]

theorem onLog_ne_interrupted {β : Type} {op : Log → Except Fault (β × Log)}
    (h : ∀ log, op log ≠ .error .interrupted) (db : Database) :
    onLog op db ≠ .error .interrupted := by
  rw [onLog]
  rcases db.log with _ | log
  · simp
  · exact map_ne_interrupted _ (h log)

end Script

theorem Log.insert_ne_interrupted (log : Log) (d : Draft) : log.insert d ≠ .error .interrupted := by
  unfold insert idOf linkClash?
  split
  · next fault hid =>
    split at hid
    · split at hid <;> cases hid
      simp
    · cases hid
    · cases hid
      simp
  · split
    · simp
    · dsimp only
      split
      · split
        · next fault hclash =>
          split at hclash
          · cases hclash
          · split at hclash <;> cases hclash
            simp
        · simp
      · simp

theorem Log.reindex_ne_interrupted (log : Log) (indexing : Indexing) :
    log.reindex indexing ≠ .error .interrupted := by
  rw [reindex]
  split
  · simp
  · split <;> simp

theorem Legacy.decode_ne_interrupted (r : LegacyRow) : decode r ≠ .error .interrupted := by
  obtain ⟨id, name, value, deleted, ttl⟩ := r
  cases name <;> cases deleted <;> cases ttl <;> exact fun h => nomatch h

theorem Legacy.read_ne_interrupted (legacy : Legacy) : legacy.read ≠ .error .interrupted := by
  have hall : ∀ rows : List LegacyRow, rows.mapM decode ≠ .error .interrupted := by
    intro rows
    induction rows with
    | nil => exact fun h => nomatch h
    | cons r rows ih =>
      have hr := decode_ne_interrupted r
      rw [List.mapM_cons]
      rcases hdecode : decode r with fault | e <;> rw [hdecode] at hr
      · simpa [bind, Except.bind] using hr
      · rcases hrest : rows.mapM decode with fault | rest <;> rw [hrest] at ih
        · simpa [bind, Except.bind] using ih
        · simp [bind, Except.bind, pure, Except.pure]
  rw [read]
  split
  · simp
  · exact hall _

namespace Migration

variable {α : Type} {db db' : Database}

theorem isMigration_tell (step : MigrationStep) {fault : Fault} (h : fault ≠ .interrupted) :
    Error.isMigration (tell step fault) = true := by
  cases fault <;> first | exact absurd rfl h | rfl

/-- A step of a migration tells what it can tell if its statements never answer with an interruption
themselves, and the rest does. -/
theorem tells_exec {step : MigrationStep} {β : Type}
    {statement : Database → Except Fault (β × Database)} {next : β → Script α}
    (hstatement : ∀ db, statement db ≠ .error .interrupted)
    (hnext : ∀ b, (next b).Tells (Error.isMigration · = true)) :
    (exec statement (tell step) next).Tells (Error.isMigration · = true) :=
  ⟨hstatement, fun fault => ⟨tell step fault, rfl, fun h => h ▸ rfl, isMigration_tell step⟩, hnext⟩

theorem tells_copyRows {next : Nat → Script α} (hnext : ∀ n, (next n).Tells (·.isMigration = true))
    (copied : Nat) (chain : Option Chain) (entries : List LegacyEntry) :
    (copyRows next copied chain entries).Tells (·.isMigration = true) := by
  induction entries generalizing copied chain with
  | nil => exact hnext copied
  | cons e rest ih =>
    rw [copyRows]
    rcases draft? (Chain.ofName? chain e.name) e with _ | d
    · exact ih _ _
    · exact tells_exec (onLog_ne_interrupted fun log => log.insert_ne_interrupted d) fun id =>
        ih _ _

theorem tells_conclude (status : MigrationStatus) :
    (conclude status).Tells (·.isMigration = true) := by
  refine tells_exec (by simp) fun _ => tells_exec (by simp) fun _ => tells_exec ?_ fun _ =>
    tells_exec (onLog_ne_interrupted ?_) fun _ => tells_exec (by simp) fun _ => trivial
  · intro db
    split <;> simp
  · exact fun log => map_ne_interrupted _ (log.reindex_ne_interrupted .linkFirst)

theorem tells_copyOver : copyOver.Tells (·.isMigration = true) := by
  refine tells_exec (onLog_ne_interrupted (by simp)) fun empty => ?_
  split
  · refine tells_exec ?_ fun entries => tells_copyRows (fun n => tells_conclude (.migrated n)) _ _ _
    intro db
    rw [readRows]
    split
    · simp
    · next legacy _ => exact map_ne_interrupted _ legacy.read_ne_interrupted
  · exact tells_conclude .initialized

/-- **Whatever a migration fails with** is told as an error of a migration, unless it was
interrupted. -/
theorem tells_script (countable : Bool) : (script countable).Tells (·.isMigration = true) := by
  refine tells_exec (by simp) fun recorded => ?_
  split
  · trivial
  · refine tells_exec (by simp) fun found => ?_
    rcases found with _ | _ | _
    · rfl
    · exact tells_conclude .initialized
    · exact tells_copyOver

theorem propagates_script (countable : Bool) : (script countable).Propagates :=
  (tells_script countable).propagates

/-- A migration is one transaction of its statements. -/
theorem conduct_script (countable : Bool) (looks : Transaction.Looks)
    (entry begin commit : Except Error Unit) (db : Database) :
    Transaction.conduct looks entry begin commit ((script countable).play []) db =
      Transaction.run looks entry begin commit (run countable) db :=
  (propagates_script countable).conduct_eq (kept_script countable) looks entry begin commit db

/-! ## What it leaves -/

theorem kept_script_of_version {countable : Bool} {c : Connection}
    (h : c.visible.version = version) :
    (script countable).kept c = .ok (.upToDate, c.visible) := by
  rw [script, kept_exec]
  dsimp only
  rw [if_pos h, Connection.put_visible]
  rfl

/-- The end of a migration, where it went well. -/
theorem of_ending {status status' : MigrationStatus}
    (h : (ending status).carryOut db = (.ok status', db')) :
    db'.version = version ∧ ∃ log, db'.log = some log ∧ log.indexing = .linkFirst := by
  obtain ⟨u, between, hrebuild, hrecord⟩ := of_carryOut_bind h
  have hindexed : ∃ log, between.log = some log ∧ log.indexing = .linkFirst := by
    rcases hlog : db.log with _ | log
    · have hkept := Work.kept_eq_ok.2 hrebuild
      rw [kept_rebuildIndices, hlog] at hkept
      cases hkept
    · exact ⟨_, of_rebuildIndices hlog hrebuild, rfl⟩
  cases hrecord
  exact ⟨rfl, hindexed⟩

/-- **A migration that went well** recorded the version and made the new indices. -/
theorem of_script {countable : Bool} {status : MigrationStatus} {c : Connection}
    (hversion : c.visible.version ≠ version)
    (h : (script countable).kept c = .ok (status, db')) :
    db'.version = version ∧ ∃ log, db'.log = some log ∧ log.indexing = .linkFirst := by
  rw [kept_script, Work.kept_eq_ok] at h
  obtain ⟨db₁, db₂, hget, hfound⟩ := of_carryOut_bind h
  cases hget
  rw [if_neg hversion] at hfound
  rcases countable
  · cases hfound
  · rcases hlegacy : c.visible.legacy with _ | legacy <;> rw [hlegacy] at hfound
    · exact of_ending hfound
    · obtain ⟨copied, between, -, hend⟩ := of_carryOut_bind hfound
      exact of_ending hend

end Migration

end RevisionLog
