import RevisionLog.Proofs.Batches

/-!
# Compaction beyond the end

A single compaction to a revision above the current one is refused before anything is done. A
compactor has no such check of its own. It goes in steps, each of them a transaction that is checked
by itself, so those at or below the current revision are made, and only then one is refused: the
history up to the last step is gone though the compaction has failed.

* `Compaction.reach` — how far the steps get.
* `Compaction.advance_beyond` — the steps towards a revision that is not there yet.
* `Log.Start.compact_beyond` — a single compaction changes nothing, and a compactor leaves what a
  single compaction to the last of its steps leaves.
* `Log.exists_refused_after_compacting` — a compactor fails, and a row is gone.
-/

namespace RevisionLog

namespace Compaction

variable {settings : CompactionSettings} {watermark current revision : Int}

/-! ## How far the steps get -/

/-- Where the steps from a watermark get that go on beyond the current revision: to the last one at
or below it, where the sums stay in the range of revisions. -/
def reach (settings : CompactionSettings) (watermark current : Int) : Int :=
  watermark + ((min current Revision.greatest - watermark) / step settings).toNat * step settings

/-- Not even one step is made, if the first one goes beyond. -/
theorem reach_of_lt (h : min current Revision.greatest < watermark + step settings) :
    reach settings watermark current = watermark := by
  have hnone : (min current Revision.greatest - watermark) / step settings < 1 :=
    (Int.ediv_lt_iff_lt_mul (step_pos settings)).2 (by omega)
  rw [reach, Int.toNat_of_nonpos (by omega), Int.natCast_zero, Int.zero_mul, Int.add_zero]

/-- The steps behind the first one get as far as all of them. -/
theorem reach_of_le (h : watermark + step settings ≤ min current Revision.greatest) :
    reach settings watermark current = reach settings (watermark + step settings) current := by
  have hpos := step_pos settings
  have hrest :=
    Int.sub_mul_ediv_right (min current Revision.greatest - watermark) 1 (Int.ne_of_gt hpos)
  rw [Int.one_mul, Int.sub_sub] at hrest
  have hone : 1 ≤ (min current Revision.greatest - watermark) / step settings :=
    (Int.le_ediv_iff_mul_le hpos).2 (by omega)
  rw [reach, reach, hrest, Int.toNat_of_nonneg (by omega), Int.toNat_of_nonneg (by omega),
    Int.sub_mul, Int.one_mul]
  omega

theorem le_reach (settings : CompactionSettings) (watermark current : Int) :
    watermark ≤ reach settings watermark current := by
  have hway := Int.mul_nonneg
    (Int.natCast_nonneg ((min current Revision.greatest - watermark) / step settings).toNat)
    (Int.le_of_lt (step_pos settings))
  rw [reach]
  omega

theorem reach_le (settings : CompactionSettings) (h : watermark ≤ current) :
    reach settings watermark current ≤ current := by
  rcases Int.lt_or_le (min current Revision.greatest) (watermark + step settings) with hbeyond |
    hwithin
  · rw [reach_of_lt hbeyond]
    exact h
  · have hpos := step_pos settings
    have hway := Int.ediv_mul_le (min current Revision.greatest - watermark) (Int.ne_of_gt hpos)
    have hnonneg : 0 ≤ (min current Revision.greatest - watermark) / step settings :=
      Int.ediv_nonneg (by omega) (Int.le_of_lt hpos)
    rw [reach, Int.toNat_of_nonneg hnonneg]
    omega

/-- The watermark stays exactly where already the first step goes beyond. -/
theorem reach_eq_self_iff :
    reach settings watermark current = watermark ↔
      min current Revision.greatest < watermark + step settings := by
  refine ⟨fun hself => ?_, reach_of_lt⟩
  by_contra hwithin
  have hfirst := reach_of_le (Int.not_lt.1 hwithin)
  have hbehind := le_reach settings (watermark + step settings) current
  have hpos := step_pos settings
  omega

/-! ## The steps -/

/-- What the step behind the last one comes to: it is refused, if its sum is a revision. -/
def beyond (settings : CompactionSettings) (watermark current revision : Int) : Outcome :=
  let next := reach settings watermark current + step settings
  if Revision.InRange next then .failed (.futureRevision (min next revision) current) else .overflow

/-- Where a sum is no revision the steps break down. -/
theorem advance_of_overflow {m : Type → Type} [Monad m] (target : Target m)
    (hlt : watermark < revision) (hsum : ¬Revision.InRange (watermark + step settings))
    (removed : Nat) :
    advance target settings revision watermark removed = pure .overflow := by
  rw [advance, if_pos hlt]
  split
  · rfl
  · next reached hsome => exact absurd (Revision.add?_eq_some.1 hsome).1 hsum

variable {log : Log} {db : Database}

/-- A single compaction to a revision that is not there yet is refused. -/
theorem compact_alone_of_lt (h : log.Tidy) (hdb : db.log = some log)
    (hlt : log.current < revision) :
    alone.compact revision db = (.error (.futureRevision revision log.current), db) := by
  have hrefused : Store.compact log revision = .error (.futureRevision revision log.current) := by
    rw [h.compact_eq, if_pos hlt]
  exact Work.run_of_error (Work.carryOut_onLog_of_error hdb hrefused)

/-- **The steps towards a revision that is not there yet** are made up to the last one at or below
the current revision, and the next one is refused. -/
theorem advance_beyond (h : log.Sound) (hdb : db.log = some log) (hlt : log.current < revision)
    (removed : Nat) :
    advance alone settings revision log.floor removed db =
      (beyond settings log.floor log.current revision,
        { db with log := some (log.compacted (reach settings log.floor log.current)) }) := by
  have hpos := step_pos settings
  have hfloor := h.floor_nonneg
  have hbelow := log.floor_le_current
  induction hleft : (log.current - log.floor).toNat using Nat.strong_induction_on generalizing log
      db removed with
  | _ left ih =>
    rcases Int.lt_or_le (min log.current Revision.greatest) (log.floor + step settings) with
      hbeyond | hwithin
    · -- the first step is the one that is refused
      have hreach : reach settings log.floor log.current = log.floor := reach_of_lt hbeyond
      rw [beyond, hreach, Log.compacted_of_le (Int.le_refl _), ← hdb]
      by_cases hsum : Revision.InRange (log.floor + step settings)
      · have hnext : log.current < min (log.floor + step settings) revision := by
          obtain ⟨-, hfits⟩ := hsum
          omega
        rw [advance_of_lt alone (by omega) hsum, if_pos hsum]
        simp only [bind, StateT.bind, compact_alone_of_lt h.toTidy hdb hnext]
        rfl
      · rw [advance_of_overflow alone (by omega) hsum, if_neg hsum]
        rfl
    · have hsum : Revision.InRange (log.floor + step settings) := by
        refine ⟨?_, by omega⟩
        unfold Revision.least
        omega
      have hnext : min (log.floor + step settings) revision = log.floor + step settings :=
        Int.min_eq_left (by omega)
      have hthere : log.floor + step settings ≤ log.current := by omega
      -- the rest of the steps, from the log after the first one
      obtain ⟨after, hafter⟩ : ∃ after, log.compacted (log.floor + step settings) = after :=
        ⟨_, rfl⟩
      have hsound : after.Sound := hafter ▸ h.compacted hthere
      have hcurrent : after.current = log.current := hafter ▸ h.current_compacted hthere
      have hraised : after.floor = log.floor + step settings := by
        rw [← hafter, h.floor_compacted, Int.max_eq_right (by omega)]
      have hwhole : after.compacted (reach settings log.floor log.current) =
          log.compacted (reach settings log.floor log.current) := by
        rw [reach_of_le hwithin, ← hafter, h.compacted_compacted _ (reach_le settings hthere),
          Int.max_eq_right (le_reach settings _ _)]
      rw [advance_alone_of_le h hdb (by omega) hsum (by omega) (by rw [hnext, hafter]),
        ih _ (by omega) hsound rfl (by omega) _ (by omega) (by omega) rfl, beyond, beyond, hraised,
        hcurrent,
        ← reach_of_le hwithin, hwhole]

/-- A compactor that is asked for a revision that is not there yet. -/
theorem compactTo_beyond (h : log.Sound) (hdb : db.log = some log) (hlt : log.current < revision) :
    compactTo alone settings revision db =
      (beyond settings log.floor log.current revision,
        { db with log := some (log.compacted (reach settings log.floor log.current)) }) := by
  rw [compactTo_of_read (watermark_alone hdb h.store_compactedTo)]
  exact advance_beyond h hdb hlt 0

/-- One run is a compaction to the current revision less those to retain. -/
theorem run_alone (h : log.Tidy) (hdb : db.log = some log) :
    run alone settings db =
      if Revision.InRange (log.current - settings.retained) then
        compactTo alone settings (log.current - settings.retained) db
      else (.overflow, db) :=
  run_of_read (currentRevision_alone hdb h.store_currentRevision)

end Compaction

namespace Log

open Compaction

variable {log : Log}

/-- **Compaction beyond the end.** In every state that a run reaches, as long as nobody writes: a
single compaction to a revision above the current one is refused and changes nothing. A compactor
that is sent there never succeeds. It leaves what a single compaction to the last of its steps at
or below the current revision leaves, and the watermark there; so it changes nothing exactly where
its first step already goes beyond. A run that is to retain fewer than no revisions is such a
compactor. -/
theorem Start.compact_beyond (h : log.Start) (ops : List Op) {db : Database}
    (hdb : db.log = some (log.play ops)) :
    ∃ watermark current, Store.compactedTo (log.play ops) = .ok watermark ∧
      Store.currentRevision (log.play ops) = .ok current ∧
      (∀ revision, current < revision →
        alone.compact revision db = (.error (.futureRevision revision current), db)) ∧
      ∀ settings : CompactionSettings, ∃ removed after,
        alone.compact (reach settings watermark current) db =
          (.ok removed, { db with log := some after }) ∧
        Store.compactedTo after = .ok (reach settings watermark current) ∧
        (after = log.play ops ↔ min current Revision.greatest < watermark + step settings) ∧
        (∀ revision, current < revision → compactTo alone settings revision db =
          (beyond settings watermark current revision, { db with log := some after })) ∧
        (settings.retained < 0 → run alone settings db =
          if Revision.InRange (current - settings.retained) then
            (beyond settings watermark current (current - settings.retained),
              { db with log := some after })
          else (.overflow, db)) := by
  have hreached := (h.intact.play ops).toSound
  refine ⟨_, _, hreached.store_compactedTo, hreached.store_currentRevision,
    fun revision hlt => compact_alone_of_lt hreached.toTidy hdb hlt, fun settings => ?_⟩
  have hfar := reach_le settings (log.play ops).floor_le_current
  have hfloor :=
    hreached.floor_compacted (reach settings (log.play ops).floor (log.play ops).current)
  rw [Int.max_eq_right (le_reach settings _ _)] at hfloor
  refine ⟨_, _, compact_alone hreached.toTidy hdb hfar, ?_, ⟨?_, ?_⟩,
    fun revision => compactTo_beyond hreached hdb, ?_⟩
  · rw [(hreached.compacted hfar).store_compactedTo, hfloor]
  · intro hsame
    rw [hsame] at hfloor
    exact reach_eq_self_iff.1 hfloor.symm
  · intro hbeyond
    rw [reach_of_lt hbeyond, compacted_of_le (Int.le_refl _)]
  · intro hnegative
    rw [run_alone hreached.toTidy hdb, compactTo_beyond hreached hdb (by omega)]

/-- A compactor in steps of two goes from the watermark 1 to the revision 3 before its step to 5 is
refused. -/
theorem Start.exists_compact_beyond : ∃ (log : Log) (ops : List Op) (db : Database), log.Start ∧
    ops = [.create "a" [1] 0, .update "a" [2] 1 0, .compact 1, .create "b" [3] 0, .delete "b" 3] ∧
    db.log = some (log.play ops) ∧ Store.compactedTo (log.play ops) = .ok 1 ∧
    Store.currentRevision (log.play ops) = .ok 4 ∧
    alone.compact 9 db = (.error (.futureRevision 9 4), db) ∧
    ∃ removed after, alone.compact 3 db = (.ok removed, { db with log := some after }) ∧
      Store.compactedTo after = .ok 3 ∧ after ≠ log.play ops ∧
      compactTo alone { batchSize := 2 } 9 db =
        (.failed (.futureRevision 5 4), { db with log := some after }) := by
  let ops : List Op :=
    [.create "a" [1] 0, .update "a" [2] 1 0, .compact 1, .create "b" [3] 0, .delete "b" 3]
  let settings : CompactionSettings := { batchSize := 2 }
  obtain ⟨watermark, current, hwatermark, hcurrent, hsingle, hsteps⟩ :=
    Start.empty.compact_beyond ops (show ({ log := some _ } : Database).log = some _ from rfl)
  have hone : Store.compactedTo (Log.play { indexing := .linkFirst } ops) = .ok 1 := by
    decide +kernel
  have hfour : Store.currentRevision (Log.play { indexing := .linkFirst } ops) = .ok 4 := by
    decide +kernel
  obtain rfl : (1 : Int) = watermark := Except.ok.inj (hone.symm.trans hwatermark)
  obtain rfl : (4 : Int) = current := Except.ok.inj (hfour.symm.trans hcurrent)
  have hreach : reach settings 1 4 = 3 := by decide
  have hbeyond : beyond settings 1 4 9 = .failed (.futureRevision 5 4) := by decide
  obtain ⟨removed, after, hstep, hafter, hsame, hloop, -⟩ := hsteps settings
  rw [hreach] at hstep hafter
  have hfailed := hloop 9 (by decide)
  rw [hbeyond] at hfailed
  exact ⟨_, ops, _, .empty, rfl, rfl, hone, hfour, hsingle 9 (by decide), removed, after, hstep,
    hafter, mt hsame.1 (by decide), hfailed⟩

/-- A compactor is sent to the revision 3 of a log whose current one is 2. It is told that 3 is in
the future, and the watermark is raised all the same, and a row is gone. So it is with a run that is
to retain one revision less than none. A single compaction changes nothing. -/
theorem exists_refused_after_compacting : ∃ log after : Log,
    log = play { indexing := .linkFirst } [.create "a" [] 0, .update "a" [] 1 0] ∧
    alone.compact 3 { log := some log } = (.error (.futureRevision 3 2), { log := some log }) ∧
    compactTo alone { batchSize := 1 } 3 { log := some log } =
      (.failed (.futureRevision 3 2), { log := some after }) ∧
    run alone { batchSize := 1, retained := -1 } { log := some log } =
      (.failed (.futureRevision 3 2), { log := some after }) ∧
    (Store.compactedTo log = .ok 0 ∧ log.rows.length = 2) ∧
    (Store.compactedTo after = .ok 2 ∧ after.rows.length = 1) := by
  let log := play { indexing := .linkFirst } [.create "a" [] 0, .update "a" [] 1 0]
  have hsound : log.Sound :=
    (Start.empty.intact.play [.create "a" [] 0, .update "a" [] 1 0]).toSound
  have hdb : ({ log := some log } : Database).log = some log := rfl
  have hcurrent : log.current = 2 := by decide +kernel
  have hfloor : log.floor = 0 := by decide +kernel
  have hlt : log.current < 3 := by rw [hcurrent]; decide
  have hsingle := compact_alone_of_lt hsound.toTidy hdb hlt
  have hloop : ∀ settings, step settings = 1 → compactTo alone settings 3 { log := some log } =
      (.failed (.futureRevision 3 2), { log := some (log.compacted 2) }) := by
    intro settings hone
    have hreach : reach settings 0 2 = 2 := by rw [reach, hone]; decide
    have hbeyond : beyond settings 0 2 3 = .failed (.futureRevision 3 2) := by
      rw [beyond, hreach, hone]; decide
    rw [compactTo_beyond hsound hdb hlt, hfloor, hcurrent, hbeyond, hreach]
  have hrun : run alone { batchSize := 1, retained := -1 } { log := some log } = _ :=
    run_alone hsound.toTidy hdb
  rw [hcurrent, if_pos (by decide)] at hrun
  rw [hcurrent] at hsingle
  have hbefore : Store.compactedTo log = .ok 0 ∧ log.rows.length = 2 := by decide +kernel
  have hafter : Store.compactedTo (log.compacted 2) = .ok 2 ∧
    (log.compacted 2).rows.length = 1 := by decide +kernel
  exact ⟨log, log.compacted 2, rfl, hsingle, hloop _ rfl, hrun.trans (hloop _ rfl), hbefore, hafter⟩

end Log

end RevisionLog
