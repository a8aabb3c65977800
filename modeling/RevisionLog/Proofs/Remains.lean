import RevisionLog.Proofs.Replay

/-!
# What compaction leaves

Compaction finds the rows that go by the links between rows. What it leaves at or below the revision
is what a reader of that revision can still see: one live state for every name that has one.

* `Log.LiveAt` — a row is the live state of its name at a revision.
* `Log.Sound.mem_rows_compact` — the rows that are left.
* `Log.Start.compact_leaves` — all that a compaction does, in every state that a run reaches.
-/

namespace RevisionLog.Log

variable {log : Log} {revision : Int}

/-- A row is the live state of its name at a revision: no later state of the name is at or below the
revision, and it does not delete. -/
structure LiveAt (log : Log) (revision : Int) (r : Row) : Prop where
  mem : r ∈ log.rows
  le : r.id ≤ revision
  state : r.isGap = false
  live : r.isTombstone = false
  last : ∀ s ∈ log.rows, s.isGap = false → s.name = r.name → s.id ≤ revision → s.id ≤ r.id

/-- A name has one live state at a revision. -/
theorem LiveAt.eq {r s : Row} (hr : log.LiveAt revision r) (hs : log.LiveAt revision s)
    (hname : r.name = s.name) : r = s := by
  have hrs := hs.last r hr.mem hr.state hname hr.le
  have hsr := hr.last s hs.mem hs.state hname.symm hs.le
  exact row_eq_of_id_eq hr.mem hs.mem (Int.le_antisymm hrs hsr)

namespace Sound

/-- Behind a state that a later one comes after there is a next one, at or below the later one. -/
theorem exists_next_le (h : log.Sound) {name : String} {p e : Entry} (hp : p ∈ log.chain name)
    (he : e ∈ log.chain name) (hlt : p.revision < e.revision) :
    ∃ f ∈ log.chain name, p.Precedes f ∧ f.revision ≤ e.revision := by
  obtain ⟨front, rest, hsplit⟩ := List.append_of_mem hp
  have hchain := h.chained name
  have hsorted := log.pairwise_chain name
  rw [hsplit] at he hchain hsorted
  obtain ⟨-, hbehind, hbefore⟩ := List.pairwise_append.1 hsorted
  rcases List.mem_append.1 he with hfront | hback
  · have hle := hbefore e hfront p List.mem_cons_self
    omega
  · rcases List.mem_cons.1 hback with rfl | hrest
    · omega
    · rcases rest with _ | ⟨f, rest⟩
      · cases hrest
      · rw [List.isChain_append_cons_cons] at hchain
        refine ⟨f, by rw [hsplit]; simp, hchain.2.1, ?_⟩
        rcases List.mem_cons.1 hrest with rfl | hrest
        · exact Int.le_refl _
        · exact Int.le_of_lt ((List.pairwise_cons.1 (List.pairwise_cons.1 hbehind).2).1 e hrest)

/-- Of the rows at or below the revision those stay that are live there. -/
theorem forgets_eq_false_iff (h : log.Sound) {r : Row} (hr : r ∈ log.rows) (hle : r.id ≤ revision) :
    log.forgets revision r.toEntry = false ↔ log.LiveAt revision r := by
  have hplain := h.plain r hr
  have hmem : r.toEntry ∈ log.entries := List.mem_map_of_mem hr
  rw [← Bool.not_eq_true, forgets_iff]
  constructor
  · intro hkept
    have hlive : r.toEntry.deleted = false := eq_false_of_ne_true fun hdeleted =>
      hkept (Or.inr ⟨hle, hdeleted⟩)
    have hgap : r.toEntry.isGap = false := by rw [Entry.isGap, hlive, Bool.and_false]
    refine ⟨hr, hle, by rw [hplain.isGap_eq, hgap], by rw [hplain.isTombstone_eq, hlive], ?_⟩
    intro s hs hsgap hname hsle
    by_contra hlater
    -- the next state of the name is at or below the revision too, and it follows the row
    rw [(h.plain s hs).name_eq, hplain.name_eq, Cell.text.injEq] at hname
    rw [(h.plain s hs).isGap_eq] at hsgap
    obtain ⟨f, hf, hnext, hfs⟩ := h.exists_next_le (mem_chain.2 ⟨hmem, rfl, hgap⟩)
      (mem_chain.2 ⟨List.mem_map_of_mem hs, hname, hsgap⟩) (Int.not_le.1 hlater)
    have hpos := h.positive _ hmem
    have hlink := hnext.link
    refine hkept (Or.inl ⟨f, (mem_chain.1 hf).1, Int.le_trans hfs hsle, ?_, hlink.symm⟩)
    omega
  · rintro hlive (⟨f, hf, hfle, -, hlink⟩ | ⟨-, hdeleted⟩)
    · -- what follows the row is a later state of the name
      have hgap : r.toEntry.isGap = false := by rw [← hplain.isGap_eq, hlive.state]
      obtain ⟨hname, hfgap⟩ := h.name_eq_of_link hmem hgap hf hlink.symm
      have hearlier := h.earlier f hf hfgap
      obtain ⟨s, hs, rfl⟩ := mem_entries.1 hf
      have hsplain := h.plain s hs
      have hlast := hlive.last s hs (by rw [hsplain.isGap_eq, hfgap])
        (by rw [hsplain.name_eq, hplain.name_eq, hname]) hfle
      simp only [Row.revision_toEntry] at hlink hearlier
      omega
    · rw [← hplain.isTombstone_eq, hlive.live] at hdeleted
      cases hdeleted

/-- **What is left.** Above the revision every row stays, and of the others those that are
live there. -/
theorem mem_rows_compact (h : log.Sound) {r : Row} :
    r ∈ (log.compact revision).2.rows ↔
      (revision < r.id ∧ r ∈ log.rows) ∨ log.LiveAt revision r := by
  rw [h.mem_rows_compact_iff]
  constructor
  · rintro ⟨hr, hkept⟩
    rcases Int.lt_or_le revision r.id with habove | hle
    · exact Or.inl ⟨habove, hr⟩
    · exact Or.inr ((h.forgets_eq_false_iff hr hle).1 hkept)
  · rintro (⟨habove, hr⟩ | hlive)
    · exact ⟨hr, h.forgets_of_lt habove⟩
    · exact ⟨hlive.mem, (h.forgets_eq_false_iff hlive.mem hlive.le).2 hlive⟩

end Sound

/-- The answer of a compaction is the number of the rows that are gone. -/
theorem fst_compact (log : Log) (revision : Int) :
    (log.compact revision).1 =
      (log.rows.filter fun r => r ∉ (log.compact revision).2.rows).length := by
  have hrows : (log.compact revision).2.rows = log.rows.filter fun r => !log.isHistory revision r :=
    rfl
  have hgone : (log.rows.filter fun r => r ∉ (log.compact revision).2.rows) =
      log.rows.filter fun r => !(!log.isHistory revision r) := by
    refine List.filter_congr ?_
    intro r hr
    rw [hrows]
    simp [hr]
  have hsum := List.length_eq_length_filter_add (l := log.rows) fun r => !log.isHistory revision r
  have hremoved :
    (log.compact revision).1 = log.rows.length - (log.compact revision).2.rows.length := rfl
  rw [hremoved, hgone, hrows]
  omega

/-- What a compaction to a revision leaves of a log, and how many rows it takes away. -/
structure Leaves (log : Log) (revision removed : Int) (left : Log) : Prop where
  watermark : Store.compactedTo left = .ok revision
  /-- the rows above the revision are as they were -/
  above : ∀ r, revision < r.id → (r ∈ left.rows ↔ r ∈ log.rows)
  /-- the others are the live ones, as they were -/
  below : ∀ r, r.id ≤ revision → (r ∈ left.rows ↔ log.LiveAt revision r)
  /-- there is one for each name -/
  single : ∀ r ∈ left.rows, ∀ s ∈ left.rows, r.id ≤ revision → s.id ≤ revision → r.name = s.name →
    r = s
  removed : removed = (log.rows.filter fun r => r ∉ left.rows).length

/-- A compaction of a sound log to a revision above the floor. -/
theorem Sound.leaves (h : log.Sound) (habove : log.floor < revision)
    (hle : revision ≤ log.current) :
    log.Leaves revision (log.compact revision).1 (log.compact revision).2 where
  watermark := by
    rw [(h.compact habove hle).store_compactedTo, h.floor_compact habove]
  above r hr := by
    rw [h.mem_rows_compact]
    constructor
    · rintro (⟨-, hmem⟩ | hlive)
      · exact hmem
      · exact hlive.mem
    · exact fun hmem => Or.inl ⟨hr, hmem⟩
  below r hr := by
    rw [h.mem_rows_compact]
    constructor
    · rintro (⟨hlt, -⟩ | hlive)
      · omega
      · exact hlive
    · exact Or.inr
  single r hr s hs hrle hsle hname := by
    have hlive : ∀ t ∈ (log.compact revision).2.rows, t.id ≤ revision → log.LiveAt revision t := by
      intro t ht htle
      rcases h.mem_rows_compact.1 ht with ⟨hlt, -⟩ | hlive
      · omega
      · exact hlive
    exact (hlive r hr hrle).eq (hlive s hs hsle) hname
  removed := congrArg Int.ofNat (log.fst_compact revision)

/-- **Compaction removes exactly the history that nobody can see.** In every state that a run
reaches, a compaction to a revision above the watermark succeeds and leaves what is above the
revision and what is live there; one up to the watermark changes nothing, and one beyond the current
revision is refused. -/
theorem Start.compact_leaves {log : Log} (h : log.Start) (ops : List Op) :
    ∃ watermark current, Store.compactedTo (log.play ops) = .ok watermark ∧
      Store.currentRevision (log.play ops) = .ok current ∧
      ∀ db : Database, db.log = some (log.play ops) → ∀ revision,
        (watermark < revision → revision ≤ current → ∃ removed left,
          (Op.compact revision).commit db = (.ok removed, { db with log := some left }) ∧
            (log.play ops).Leaves revision removed left) ∧
        (revision ≤ watermark → (Op.compact revision).commit db = (.ok 0, db)) ∧
        (current < revision →
          (Op.compact revision).commit db = (.error (.futureRevision revision current), db)) := by
  have hreached := (h.intact.play ops).toSound
  have hsame : ∀ db : Database, db.log = some (log.play ops) →
      { db with log := some (log.play ops) } = db := by
    intro db hdb
    rw [← hdb]
  have hfloor := (log.play ops).floor_le_current
  refine ⟨_, _, hreached.store_compactedTo, hreached.store_currentRevision, ?_⟩
  intro db hdb revision
  rw [Op.commit_eq_perform _ hdb, Op.perform, Op.on, hreached.compact_eq]
  refine ⟨?_, ?_, ?_⟩
  · intro habove hle
    rw [if_neg (Int.not_lt.2 hle), if_neg (Int.not_le.2 habove)]
    exact ⟨_, _, rfl, hreached.leaves habove hle⟩
  · intro hbelow
    rw [if_neg (by omega), if_pos hbelow]
    exact congrArg (Prod.mk _) (hsame db hdb)
  · intro hfuture
    rw [if_pos hfuture]
    exact congrArg (Prod.mk _) (hsame db hdb)

/-- A log is compacted for the second time: of a key that was replaced, one that was deleted and
a placeholder above the revision only the payload that replaced another one and the placeholder
are left. -/
theorem Start.exists_compact_leaves : ∃ (log : Log) (ops : List Op) (db : Database), log.Start ∧
    ops = [.create "a" [1] 0, .create "b" [2] 0, .update "a" [3] 1 0, .compact 2, .delete "b" 2,
      .fill 7 (by decide)] ∧
    db.log = some (log.play ops) ∧ Store.compactedTo (log.play ops) = .ok 2 ∧
    Store.currentRevision (log.play ops) = .ok 7 ∧ (2 : Int) < 4 ∧ (4 : Int) ≤ 7 ∧ ∃ left,
    (Op.compact 4).commit db = (.ok 3, { db with log := some left }) ∧
    (log.play ops).Leaves 4 3 left := by
  obtain ⟨watermark, current, hwatermark, hcurrent, hcompact⟩ := Start.empty.compact_leaves
    [.create "a" [1] 0, .create "b" [2] 0, .update "a" [3] 1 0, .compact 2, .delete "b" 2,
      .fill 7 (by decide)]
  have htwo : Store.compactedTo (Log.play { indexing := .linkFirst }
      [.create "a" [1] 0, .create "b" [2] 0, .update "a" [3] 1 0, .compact 2, .delete "b" 2,
        .fill 7 (by decide)]) = .ok 2 := by
    decide +kernel
  have hseven : Store.currentRevision (Log.play { indexing := .linkFirst }
      [.create "a" [1] 0, .create "b" [2] 0, .update "a" [3] 1 0, .compact 2, .delete "b" 2,
        .fill 7 (by decide)]) = .ok 7 := by
    decide +kernel
  obtain rfl : (2 : Int) = watermark := Except.ok.inj (htwo.symm.trans hwatermark)
  obtain rfl : (7 : Int) = current := Except.ok.inj (hseven.symm.trans hcurrent)
  obtain ⟨removed, left, hcommit, hleaves⟩ :=
    (hcompact { log := some _ } rfl 4).1 (by decide) (by decide)
  have hthree : ((Op.compact 4).commit { log := some (Log.play { indexing := .linkFirst }
      [.create "a" [1] 0, .create "b" [2] 0, .update "a" [3] 1 0, .compact 2, .delete "b" 2,
        .fill 7 (by decide)]) }).1 = .ok 3 := by
    decide +kernel
  rw [hcommit] at hthree
  obtain rfl : removed = 3 := Except.ok.inj hthree
  exact ⟨_, _, _, .empty, rfl, rfl, htwo, hseven, by decide, by decide, left, hcommit, hleaves⟩

end RevisionLog.Log
