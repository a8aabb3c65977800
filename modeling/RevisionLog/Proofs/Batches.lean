import Mathlib.Algebra.GroupWithZero.Nat
import RevisionLog.Compaction
import RevisionLog.Proofs.Density
import RevisionLog.Proofs.Remains

/-!
# Compaction in batches

A compaction takes away the rows whose links a later one would have followed. What it leaves is
still enough: as long as nobody writes, several compactions come to the same as a single one to the
greatest of their revisions, in whatever order they are made, and the rows they take away add up.

* `Log.compacted` — the log after a compaction to a revision, also where there is nothing to do.
* `Log.Sound.compacted_compacted` — two compactions are one; `Log.Sound.foldl_compacted` — so are
  many.
* `Compaction.alone` — how compaction reaches a file that nobody else uses.
* `Compaction.StepsFit` — the sums of a run in steps stay in the range of revisions.
* `Log.Start.compact_in_batches` — all this for the transactions of a store and for the loop of a
  compactor.
-/

namespace RevisionLog

namespace Log

variable {log : Log} {a b revision : Int}

/-- A log is its rows, its memory of ids, its watermark and its indices. -/
theorem eq_of_rows_eq {log log' : Log} (hrows : log.rows = log'.rows)
    (hsequence : log.sequence = log'.sequence) (hwatermark : log.watermark = log'.watermark)
    (hindexing : log.indexing = log'.indexing) : log = log' := by
  cases log
  cases log'
  cases hrows
  cases hsequence
  cases hwatermark
  cases hindexing
  rfl

/-- The log after a compaction to a revision. One that is not above the watermark leaves it
as it is. -/
def compacted (log : Log) (revision : Int) : Log :=
  if revision ≤ log.floor then log else (log.compact revision).2

theorem compacted_of_le (h : revision ≤ log.floor) : log.compacted revision = log := if_pos h

theorem compacted_of_lt (h : log.floor < revision) :
    log.compacted revision = (log.compact revision).2 :=
  if_neg (Int.not_le.2 h)

/-- A compaction brings no row back. -/
theorem length_compacted_le (log : Log) (revision : Int) :
    (log.compacted revision).rows.length ≤ log.rows.length := by
  unfold compacted
  split
  · exact Nat.le_refl _
  · exact List.length_filter_le _ _

/-- What a compaction answers and leaves. -/
theorem Tidy.store_compact_eq (h : log.Tidy) (hle : revision ≤ log.current) :
    Store.compact log revision =
      .ok (log.rows.length - (log.compacted revision).rows.length, log.compacted revision) := by
  rw [h.compact_eq, if_neg (Int.not_lt.2 hle)]
  split
  · next hbelow => rw [compacted_of_le hbelow, Nat.sub_self]
  · next habove =>
    rw [compacted_of_lt (Int.not_le.1 habove)]
    rfl

namespace Sound

/-! ## Two compactions -/

/-- An earlier compaction to a revision below leaves alone what is live at a revision. -/
theorem liveAt_compact_iff (h : log.Sound) (hab : a ≤ b) {r : Row} :
    (log.compact a).2.LiveAt b r ↔ log.LiveAt b r := by
  constructor
  · intro hlive
    have hr : r ∈ log.rows := (List.mem_filter.1 hlive.mem).1
    refine ⟨hr, hlive.le, hlive.state, hlive.live, ?_⟩
    intro s hs hgap hname hle
    rcases Int.lt_or_le a s.id with habove | hbelow
    · -- the other state is still there
      exact hlive.last s (h.mem_rows_compact.2 (Or.inl ⟨habove, hs⟩)) hgap hname hle
    · -- a row that was kept at or below the earlier revision is the last state of its name there
      rcases h.mem_rows_compact.1 hlive.mem with ⟨hlater, -⟩ | hkept
      · omega
      · exact hkept.last s hs hgap hname hbelow
  · intro hlive
    have hkept : r ∈ (log.compact a).2.rows := by
      refine h.mem_rows_compact.2 ?_
      rcases Int.lt_or_le a r.id with habove | hbelow
      · exact Or.inl ⟨habove, hlive.mem⟩
      · refine Or.inr ⟨hlive.mem, hbelow, hlive.state, hlive.live, ?_⟩
        exact fun s hs hgap hname hle => hlive.last s hs hgap hname (Int.le_trans hle hab)
    refine ⟨hkept, hlive.le, hlive.state, hlive.live, ?_⟩
    exact fun s hs => hlive.last s (List.mem_filter.1 hs).1

/-- The rows that two compactions leave are those that the later one leaves alone. -/
theorem mem_rows_compact_compact (h : log.Sound) (habove : log.floor < a) (hab : a ≤ b)
    (hle : a ≤ log.current) {r : Row} :
    r ∈ ((log.compact a).2.compact b).2.rows ↔ r ∈ (log.compact b).2.rows := by
  have hfirst := h.compact habove hle
  rw [hfirst.mem_rows_compact, h.mem_rows_compact, h.mem_rows_compact, h.liveAt_compact_iff hab]
  refine or_congr_left ⟨?_, fun ⟨hlt, hr⟩ => ⟨hlt, Or.inl ⟨Int.lt_of_le_of_lt hab hlt, hr⟩⟩⟩
  rintro ⟨hlt, ⟨-, hr⟩ | hlive⟩
  · exact ⟨hlt, hr⟩
  · exact ⟨hlt, hlive.mem⟩

/-- **Two compactions are one**, if the second one goes further. -/
theorem compact_compact (h : log.Sound) (habove : log.floor < a) (hab : a < b)
    (hle : b ≤ log.current) : ((log.compact a).2.compact b).2 = (log.compact b).2 := by
  have hmem : ∀ r ∈ log.rows, (!(log.compact a).2.isHistory b r && !log.isHistory a r) =
      !log.isHistory b r := by
    intro r hr
    have hiff := h.mem_rows_compact_compact (r := r) habove (Int.le_of_lt hab) (by omega)
    have htwice : ((log.compact a).2.compact b).2.rows =
        (log.rows.filter fun r => !log.isHistory a r).filter fun r =>
          !(log.compact a).2.isHistory b r := rfl
    have honce : (log.compact b).2.rows = log.rows.filter fun r => !log.isHistory b r := rfl
    rw [htwice, honce, List.filter_filter, List.mem_filter, List.mem_filter] at hiff
    rw [Bool.eq_iff_iff]
    exact ⟨fun hkept => (hiff.1 ⟨hr, hkept⟩).2, fun hkept => (hiff.2 ⟨hr, hkept⟩).2⟩
  have hfirst := h.compact habove (by omega)
  refine eq_of_rows_eq ?_ rfl ?_ rfl
  · show (log.rows.filter _).filter _ = log.rows.filter _
    rw [List.filter_filter]
    exact List.filter_congr hmem
  · rw [hfirst.watermark_compact (by rw [h.floor_compact habove]; exact hab),
      h.watermark_compact (by omega)]

/-! ## Compaction to any revision that there is -/

theorem compacted (h : log.Sound) (hle : revision ≤ log.current) :
    (log.compacted revision).Sound := by
  rcases Int.lt_or_le log.floor revision with habove | hbelow
  · rw [compacted_of_lt habove]
    exact h.compact habove hle
  · rw [compacted_of_le hbelow]
    exact h

theorem floor_compacted (h : log.Sound) (revision : Int) :
    (log.compacted revision).floor = max log.floor revision := by
  rcases Int.lt_or_le log.floor revision with habove | hbelow
  · rw [compacted_of_lt habove, h.floor_compact habove, Int.max_eq_right (Int.le_of_lt habove)]
  · rw [compacted_of_le hbelow, Int.max_eq_left hbelow]

theorem current_compacted (h : log.Sound) (hle : revision ≤ log.current) :
    (log.compacted revision).current = log.current := by
  rcases Int.lt_or_le log.floor revision with habove | hbelow
  · rw [compacted_of_lt habove, h.current_compact habove hle]
  · rw [compacted_of_le hbelow]

/-- **Two compactions are one**, in either order. -/
theorem compacted_compacted (h : log.Sound) (a : Int) (hb : b ≤ log.current) :
    (log.compacted a).compacted b = log.compacted (max a b) := by
  have hfloor := h.floor_compacted a
  rcases Int.lt_or_le (max log.floor a) b with hfurther | hback
  · rw [Int.max_eq_right (by omega), compacted_of_lt (by rw [hfloor]; exact hfurther),
      compacted_of_lt (show log.floor < b by omega)]
    rcases Int.lt_or_le log.floor a with habove | hbelow
    · rw [compacted_of_lt habove, h.compact_compact habove (by omega) hb]
    · rw [compacted_of_le hbelow]
  · rw [compacted_of_le (by rw [hfloor]; exact hback)]
    rcases Int.lt_or_le log.floor a with habove | hbelow
    · rw [Int.max_eq_left (by omega)]
    · rw [compacted_of_le hbelow, compacted_of_le (by omega)]

/-- **Many compactions are one**, to the greatest of their revisions. -/
theorem foldl_compacted (h : log.Sound) {revisions : List Int}
    (hle : ∀ r ∈ revisions, r ≤ log.current) :
    revisions.foldl Log.compacted (log.compacted revision) =
        log.compacted (revisions.foldl max revision) := by
  induction revisions generalizing revision with
  | nil => rfl
  | cons next revisions ih =>
    rw [List.foldl_cons, List.foldl_cons,
      h.compacted_compacted revision (hle next List.mem_cons_self)]
    exact ih fun r hr => hle r (List.mem_cons_of_mem next hr)

end Sound

theorem Intact.compacted (h : log.Intact) (hle : revision ≤ log.current) :
    (log.compacted revision).Intact := by
  refine ⟨h.toSound.compacted hle, ?_⟩
  unfold Log.compacted
  split
  · exact h.indexed
  · exact h.indexed

end Log

/-! ## Transactions -/

namespace Compaction

/-- How compaction reaches a file that nobody else uses, with nothing that disturbs its
transactions. -/
def alone : Target (StateM Database) where
  currentRevision :=
    Transaction.run {} (.ok ()) (.ok ()) (.ok ()) (Work.askLog Store.currentRevision)
  watermark :=
    Transaction.run {} (.ok ()) (.ok ()) (.ok ()) (Work.askLog Store.compactedTo metaTable)
  compact revision :=
    Transaction.run {} (.ok ()) (.ok ()) (.ok ()) (Work.onLog (Store.compact · revision))

variable {log : Log} {db : Database} {revision : Int}

theorem currentRevision_alone (hdb : db.log = some log) {current : Int}
    (hasks : Store.currentRevision log = .ok current) :
    alone.currentRevision db = (.ok current, db) :=
  Work.run_of_ok (Work.carryOut_askLog hdb hasks)

theorem watermark_alone (hdb : db.log = some log) {watermark : Int}
    (hreads : Store.compactedTo log = .ok watermark) : alone.watermark db = (.ok watermark, db) :=
  Work.run_of_ok (Work.carryOut_askLog hdb hreads)

/-- The transaction of one compaction. -/
theorem compact_alone (h : log.Tidy) (hdb : db.log = some log) (hle : revision ≤ log.current) :
    alone.compact revision db =
      (.ok (log.rows.length - (log.compacted revision).rows.length),
        { db with log := some (log.compacted revision) }) := by
  have hwork : (Work.onLog (Store.compact · revision)).carryOut db = _ :=
    Work.carryOut_onLog_of_ok hdb (h.store_compact_eq hle)
  exact Work.run_of_ok hwork

/-- The transactions of several compactions, one after the other. -/
theorem mapM_compact_alone (h : log.Sound) (hdb : db.log = some log) {revisions : List Int}
    (hle : ∀ r ∈ revisions, r ≤ log.current) :
    ∃ removed : List Nat, revisions.mapM alone.compact db =
        (removed.map .ok, { db with log := some (revisions.foldl Log.compacted log) }) ∧
      removed.sum + (revisions.foldl Log.compacted log).rows.length = log.rows.length := by
  induction revisions generalizing log db with
  | nil =>
    refine ⟨[], ?_, Nat.zero_add _⟩
    rw [List.foldl_nil, ← hdb]
    rfl
  | cons next revisions ih =>
    have hnext := hle next List.mem_cons_self
    have hlater : ∀ r ∈ revisions, r ≤ (log.compacted next).current := by
      intro r hr
      rw [h.current_compacted hnext]
      exact hle r (List.mem_cons_of_mem next hr)
    have hlog : ({ db with log := some (log.compacted next) } : Database).log =
      some (log.compacted next) := rfl
    obtain ⟨removed, hrun, hsum⟩ := ih (h.compacted hnext) hlog hlater
    have hfewer := log.length_compacted_le next
    refine ⟨(log.rows.length - (log.compacted next).rows.length) :: removed, ?_, ?_⟩
    · have hsplit : (next :: revisions).mapM alone.compact db =
          match alone.compact next db with
          | (first, between) =>
            match revisions.mapM alone.compact between with
            | (rest, after) => (first :: rest, after) := by
        rw [List.mapM_cons]
        rfl
      rw [hsplit, compact_alone h.toTidy hdb hnext]
      dsimp only
      rw [hrun, List.map_cons, List.foldl_cons]
    · rw [List.sum_cons, List.foldl_cons]
      omega

/-! ## The loop of a compactor -/

/-- Every sum that the steps from a watermark to a revision come to is a revision. -/
def StepsFit (settings : CompactionSettings) (watermark revision : Int) : Prop :=
  ∀ n : Nat, watermark + n * step settings < revision →
    Revision.InRange (watermark + n * step settings + step settings)

variable {settings : CompactionSettings}

section Reads

variable {σ : Type} {target : Target (StateM σ)} {s s' : σ}

/-- A compactor takes the steps from the watermark that it reads. -/
theorem compactTo_of_read {watermark : Int} (hreads : target.watermark s = (.ok watermark, s'))
    (revision : Int) :
    compactTo target settings revision s = advance target settings revision watermark 0 s' := by
  rw [compactTo]
  simp only [bind, StateT.bind, hreads]

/-- A run breaks down where its difference leaves the range of revisions, and is else a
compaction to it. -/
theorem run_of_read {current : Int} (hasks : target.currentRevision s = (.ok current, s')) :
    run target settings s =
      if Revision.InRange (current - settings.retained) then
        compactTo target settings (current - settings.retained) s'
      else (.overflow, s') := by
  rw [run]
  simp only [bind, StateT.bind, hasks, Revision.sub?, Revision.fit?]
  by_cases hrange : Revision.InRange (current - settings.retained)
  · rw [if_pos hrange, if_pos hrange]
  · rw [if_neg hrange, if_neg hrange]
    rfl

end Reads

/-- The steps that are left after the first one fit as well. -/
theorem StepsFit.after {watermark : Int} (h : StepsFit settings watermark revision) :
    StepsFit settings (min (watermark + step settings) revision) revision := by
  have hpos := step_pos settings
  intro n hlt
  rcases Int.lt_or_le (watermark + step settings) revision with hmore | hlast
  · rw [Int.min_eq_left (Int.le_of_lt hmore)] at hlt ⊢
    have hnext := h (n + 1)
    rw [Int.natCast_succ, Int.add_mul, Int.one_mul, Int.add_comm (n * step settings),
      ← Int.add_assoc] at hnext
    exact hnext hlt
  · -- the first step was the last one
    rw [Int.min_eq_right hlast] at hlt
    have hnonneg : 0 ≤ (n : Int) * step settings :=
      Int.mul_nonneg (Int.natCast_nonneg n) (Int.le_of_lt hpos)
    omega

/-- A step whose sum is a revision is one compaction, and then the rest of the way. -/
theorem advance_of_lt {m : Type → Type} [Monad m] (target : Target m) {watermark : Int}
    {removed : Nat} (hlt : watermark < revision)
    (hsum : Revision.InRange (watermark + step settings)) :
    advance target settings revision watermark removed = (do
      match ← target.compact (min (watermark + step settings) revision) with
      | .error e => pure (.failed e)
      | .ok n =>
          advance target settings revision (min (watermark + step settings) revision)
              (removed + n)) := by
  rw [advance, if_pos hlt]
  split
  · next hnone =>
    rw [Revision.add?_eq_some.2 ⟨hsum, rfl⟩] at hnone
    cases hnone
  · next reached hsome =>
    obtain ⟨-, rfl⟩ := Revision.add?_eq_some.1 hsome
    rfl

/-- A step to a revision that is there is one compaction, and then the rest of the way from the log
after it. -/
theorem advance_alone_of_le (h : log.Sound) (hdb : db.log = some log) (hlt : log.floor < revision)
    (hsum : Revision.InRange (log.floor + step settings))
    (hle : min (log.floor + step settings) revision ≤ log.current) {after : Log}
    (hafter : log.compacted (min (log.floor + step settings) revision) = after) (removed : Nat) :
    advance alone settings revision log.floor removed db =
      advance alone settings revision after.floor (removed + (log.rows.length - after.rows.length))
        { db with log := some after } := by
  have hpos := step_pos settings
  have hstep := compact_alone h.toTidy hdb hle
  have hfloor := h.floor_compacted (min (log.floor + step settings) revision)
  rw [hafter] at hstep hfloor
  rw [Int.max_eq_right (by omega)] at hfloor
  rw [advance_of_lt alone hlt hsum, hfloor]
  simp only [bind, StateT.bind, hstep]

/-- **The steps of a compactor come to one compaction.** -/
theorem advance_alone (h : log.Sound) (hdb : db.log = some log) (hle : revision ≤ log.current)
    (hfit : StepsFit settings log.floor revision) (removed : Nat) :
    advance alone settings revision log.floor removed db =
      (.removed (removed + (log.rows.length - (log.compacted revision).rows.length)),
        { db with log := some (log.compacted revision) }) := by
  induction hleft : (revision - log.floor).toNat using Nat.strong_induction_on generalizing log db
      removed with
  | _ left ih =>
    rcases Int.lt_or_le log.floor revision with habove | hbelow
    · have hpos := step_pos settings
      have hsum : Revision.InRange (log.floor + step settings) := by
        simpa using hfit 0 (by simpa using habove)
      have hfirst : min (log.floor + step settings) revision ≤ revision := Int.min_le_right _ _
      have hthere := Int.le_trans hfirst hle
      -- the rest of the way, from the log after the first step
      obtain ⟨after, hafter⟩ : ∃ after, log.compacted (min (log.floor + step settings) revision) =
        after := ⟨_, rfl⟩
      have hsound : after.Sound := hafter ▸ h.compacted hthere
      have hcurrent : after.current = log.current := hafter ▸ h.current_compacted hthere
      have hraised : after.floor = min (log.floor + step settings) revision := by
        rw [← hafter, h.floor_compacted, Int.max_eq_right (by omega)]
      have hwhole : after.compacted revision = log.compacted revision := by
        rw [← hafter, h.compacted_compacted _ hle, Int.max_eq_right hfirst]
      have hfewer : after.rows.length ≤ log.rows.length := hafter ▸ log.length_compacted_le _
      have hfewest := hwhole ▸ after.length_compacted_le revision
      rw [advance_alone_of_le h hdb habove hsum hthere hafter,
        ih _ (by omega) hsound rfl (by omega) (hraised ▸ hfit.after) _ rfl, hwhole]
      congr 2
      omega
    · rw [advance, if_neg (Int.not_lt.2 hbelow), Log.compacted_of_le hbelow, Nat.sub_self, ← hdb]
      rfl

/-- A run up to a revision, from the watermark there is. -/
theorem compactTo_alone (h : log.Sound) (hdb : db.log = some log) (hle : revision ≤ log.current)
    (hfit : StepsFit settings log.floor revision) :
    compactTo alone settings revision db =
      (.removed (log.rows.length - (log.compacted revision).rows.length),
        { db with log := some (log.compacted revision) }) := by
  have hsteps := advance_alone h hdb hle hfit 0
  rw [Nat.zero_add] at hsteps
  rw [compactTo_of_read (watermark_alone hdb h.store_compactedTo), hsteps]

end Compaction

namespace Log

open Compaction

/-- **Compaction in batches.** In every state that a run reaches, as long as nobody writes:
compactions to revisions at or below the current one, in any order, all succeed, leave the content
that a single one to the greatest of them leaves, and take away as many rows. So does a compactor in
steps of any size, if its sums stay in the range of revisions. -/
theorem Start.compact_in_batches {log : Log} (h : log.Start) (ops : List Op) {db : Database}
    (hdb : db.log = some (log.play ops)) :
    ∃ watermark current, Store.compactedTo (log.play ops) = .ok watermark ∧
      Store.currentRevision (log.play ops) = .ok current ∧
      (∀ (revisions : List Int) (top : Int), (∀ r ∈ revisions, r ≤ current) →
        revisions.max? = some top →
        ∃ (removed : List Nat) (after : Database), revisions.mapM alone.compact db =
          (removed.map .ok, after) ∧ alone.compact top db = (.ok removed.sum, after)) ∧
      ∀ (settings : CompactionSettings) (revision : Int), revision ≤ current →
        StepsFit settings watermark revision →
        ∃ removed after, compactTo alone settings revision db = (.removed removed, after) ∧
          alone.compact revision db = (.ok removed, after) := by
  have hreached := (h.intact.play ops).toSound
  refine ⟨_, _, hreached.store_compactedTo, hreached.store_currentRevision, ?_, ?_⟩
  · intro revisions top hle htop
    obtain ⟨removed, hrun, hsum⟩ := mapM_compact_alone hreached hdb hle
    have hone : revisions.foldl Log.compacted (log.play ops) = (log.play ops).compacted top := by
      rcases revisions with _ | ⟨first, revisions⟩
      · cases htop
      · rw [List.max?_cons', Option.some.injEq] at htop
        rw [List.foldl_cons,
          hreached.foldl_compacted fun r hr => hle r (List.mem_cons_of_mem first hr), htop]
    rw [hone] at hrun hsum
    refine ⟨removed, _, hrun, ?_⟩
    rw [compact_alone hreached.toTidy hdb (hle top (List.max?_mem htop)), ← hsum,
      Nat.add_sub_cancel]
  · intro settings revision hle hfit
    exact ⟨_, _, compactTo_alone hreached hdb hle hfit, compact_alone hreached.toTidy hdb hle⟩

/-- A log that was compacted before is compacted back and forth, and in the smallest of steps. Each
time four rows go: two that were replaced, one that was deleted, and its deletion. -/
theorem Start.exists_compact_in_batches : ∃ (log : Log) (ops : List Op) (db : Database), log.Start ∧
    ops = [.create "a" [1] 0, .update "a" [2] 1 0, .create "b" [3] 0, .compact 1, .delete "b" 3,
      .update "a" [4] 2 0] ∧
    db.log = some (log.play ops) ∧ Store.compactedTo (log.play ops) = .ok 1 ∧
    Store.currentRevision (log.play ops) = .ok 5 ∧
    (∃ (removed : List Nat) (after : Database),
      [4, 2, -3, 5].mapM alone.compact db = (removed.map .ok, after) ∧
      alone.compact 5 db = (.ok removed.sum, after) ∧ removed.sum = 4) ∧
    StepsFit { batchSize := 0 } 1 5 ∧
    ∃ after, compactTo alone { batchSize := 0 } 5 db = (.removed 4, after) ∧
      alone.compact 5 db = (.ok 4, after) := by
  obtain ⟨watermark, current, hwatermark, hcurrent, hmany, hsteps⟩ := Start.empty.compact_in_batches
    [.create "a" [1] 0, .update "a" [2] 1 0, .create "b" [3] 0, .compact 1, .delete "b" 3,
      .update "a" [4] 2 0]
    (show ({ log := some _ } : Database).log = some _ from rfl)
  have hone : Store.compactedTo (Log.play { indexing := .linkFirst }
      [.create "a" [1] 0, .update "a" [2] 1 0, .create "b" [3] 0, .compact 1, .delete "b" 3,
        .update "a" [4] 2 0]) = .ok 1 := by
    decide +kernel
  have hfive : Store.currentRevision (Log.play { indexing := .linkFirst }
      [.create "a" [1] 0, .update "a" [2] 1 0, .create "b" [3] 0, .compact 1, .delete "b" 3,
        .update "a" [4] 2 0]) = .ok 5 := by
    decide +kernel
  have hfour : (alone.compact 5 { log := some (Log.play { indexing := .linkFirst }
      [.create "a" [1] 0, .update "a" [2] 1 0, .create "b" [3] 0, .compact 1, .delete "b" 3,
        .update "a" [4] 2 0]) }).1 = .ok 4 := by
    decide +kernel
  obtain rfl : (1 : Int) = watermark := Except.ok.inj (hone.symm.trans hwatermark)
  obtain rfl : (5 : Int) = current := Except.ok.inj (hfive.symm.trans hcurrent)
  have hfit : StepsFit { batchSize := 0 } 1 5 := by
    intro n hlt
    have hstep : step { batchSize := 0 } = 1 := rfl
    rw [hstep] at hlt ⊢
    unfold Revision.InRange Revision.least Revision.greatest
    omega
  obtain ⟨removed, after, hrun, hsingle⟩ := hmany [4, 2, -3, 5] 5 (by decide) rfl
  obtain ⟨total, after', hloop, hsingle'⟩ := hsteps { batchSize := 0 } 5 (Int.le_refl 5) hfit
  have hsum : removed.sum = 4 := by
    rw [hsingle] at hfour
    exact Except.ok.inj hfour
  obtain rfl : total = 4 := by
    rw [hsingle'] at hfour
    exact Except.ok.inj hfour
  exact ⟨_, _, _, .empty, rfl, rfl, hone, hfive, ⟨removed, after, hrun, hsingle, hsum⟩, hfit,
    after', hloop, hsingle'⟩

end Log

end RevisionLog
