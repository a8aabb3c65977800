import RevisionLog.Proofs.Replay

/-!
# Revisions without a gap

The current revision is read from what is left of the rows and from the watermark, and new ids come
from a third place, the memory of ids once given. The three go together, whatever is written and
whatever is compacted. As long as nobody claims an id with a placeholder, no id is ever passed over
either.

* `Log.Sound.current_le_iff` — what it takes for a revision to be at or above the current one.
* `Log.Abreast` — the current revision is the greatest id ever given; `Log.Intact.abreast_step`
  keeps it so.
* `Request` — what clients ask, which is never to claim an id.
* `Log.Dense` — every id above the watermark has a row; `Log.Dense.step` keeps it so.
-/

namespace RevisionLog

namespace Log

variable {log log' : Log}

/-! ## The current revision -/

theorem Sound.current_le_iff (h : log.Sound) {revision : Int} :
    log.current ≤ revision ↔ log.floor ≤ revision ∧ ∀ r ∈ log.rows, r.id ≤ revision := by
  constructor
  · intro hle
    exact ⟨Int.le_trans log.floor_le_current hle, fun r hr => Int.le_trans (id_le_current hr) hle⟩
  · rintro ⟨hfloor, hrows⟩
    have hnonneg := h.floor_nonneg
    rw [current]
    rcases hmax : log.greatest? with _ | g
    · simp only [Option.getD_none]
      omega
    · obtain ⟨r, hr, rfl⟩ := List.mem_map.1 (List.max?_mem hmax)
      have hle := hrows r hr
      simp only [Option.getD_some]
      omega

/-- A current revision above the floor is the id of a row. -/
theorem Sound.exists_row_of_floor_lt (h : log.Sound) (hlt : log.floor < log.current) :
    ∃ r ∈ log.rows, r.id = log.current := by
  by_contra hnone
  push Not at hnone
  -- otherwise all rows would be at or below the revision before
  have hbefore : log.current ≤ log.current - 1 := by
    refine h.current_le_iff.2 ⟨by omega, ?_⟩
    intro r hr
    have hle := id_le_current hr
    have hne := hnone r hr
    omega
  omega

/-- The current revision after a row that keeps the log sound. -/
theorem Sound.current_put (h : log.Sound) {r : Row} {fresh : ∀ s ∈ log.rows, s.id ≠ r.id}
    (hput : (log.put r fresh).Sound) : (log.put r fresh).current = max log.current r.id := by
  refine Int.le_antisymm (hput.current_le_iff.2 ⟨?_, ?_⟩)
    (Int.max_le.2 ⟨h.current_le_iff.2 ⟨?_, ?_⟩, ?_⟩)
  · exact Int.le_trans log.floor_le_current (Int.le_max_left _ _)
  · refine forall_rows_put (Int.le_max_right _ _) ?_
    intro s hs
    exact Int.le_trans (id_le_current hs) (Int.le_max_left _ _)
  · exact (log.put r fresh).floor_le_current
  · exact fun s hs => id_le_current (mem_rows_put.2 (Or.inr hs))
  · exact id_le_current (mem_rows_put.2 (Or.inl rfl))

/-- The current revision is the greatest id ever given. -/
def Abreast (log : Log) : Prop := log.current = log.sequence.getD 0

theorem abreast_empty (indexing : Indexing) : Abreast { indexing } := rfl

theorem Sound.abreast_put (h : log.Sound) {r : Row} {fresh : ∀ s ∈ log.rows, s.id ≠ r.id}
    (hput : (log.put r fresh).Sound) (habreast : log.Abreast) : (log.put r fresh).Abreast := by
  have hsequence : (log.put r fresh).sequence.getD 0 = max (log.sequence.getD 0) r.id := rfl
  rw [Abreast, h.current_put hput, hsequence, habreast]

/-- **Compaction leaves the current revision as it is.** If the highest row goes, the watermark
takes its place. -/
theorem Sound.current_compact (h : log.Sound) {revision : Int} (habove : log.floor < revision)
    (hle : revision ≤ log.current) : (log.compact revision).2.current = log.current := by
  have hafter := h.compact habove hle
  have hfloor := h.floor_compact habove
  refine Int.le_antisymm (hafter.current_le_iff.2 ⟨by omega, ?_⟩) ?_
  · exact fun r hr => id_le_current (List.mem_filter.1 hr).1
  · rcases Int.lt_or_le revision log.current with hlt | hge
    · -- the highest row is above the revision, and stays
      obtain ⟨r, hr, hid⟩ := h.exists_row_of_floor_lt (by omega)
      have hkept : r.toEntry ∈ (log.compact revision).2.entries := by
        refine h.mem_entries_compact_of_lt (List.mem_map_of_mem hr) ?_
        rw [Row.revision_toEntry]
        omega
      rw [← hid]
      exact revision_le_current hkept
    · have hbound := (log.compact revision).2.floor_le_current
      omega

theorem Intact.abreast_step (h : log.Intact) {op : Op} {n : Int} (hstep : op.Step log n log')
    (habreast : log.Abreast) : log'.Abreast := by
  have hafter := h.step hstep
  cases hstep with
  | create _ => exact h.abreast_put hafter.toSound habreast
  | update _ => exact h.abreast_put hafter.toSound habreast
  | delete _ => exact h.abreast_put hafter.toSound habreast
  | compacted _ _ => exact habreast
  | compact habove hle => exact (h.current_compact habove hle).trans habreast
  | fill _ => exact h.abreast_put hafter.toSound habreast

/-- The floor never falls. -/
theorem Intact.floor_step (h : log.Intact) {op : Op} {n : Int} (hstep : op.Step log n log') :
    log.floor ≤ log'.floor := by
  cases hstep with
  | create _ => exact Int.le_refl _
  | update _ => exact Int.le_refl _
  | delete _ => exact Int.le_refl _
  | compacted _ _ => exact Int.le_refl _
  | compact habove _ =>
    rw [h.floor_compact habove]
    exact Int.le_of_lt habove
  | fill _ => exact Int.le_refl _

/-- The current revision never falls. -/
theorem Intact.current_step (h : log.Intact) {op : Op} {n : Int} (hstep : op.Step log n log') :
    log.current ≤ log'.current := by
  have hafter := h.step hstep
  have hput : ∀ {r : Row} {fresh : ∀ s ∈ log.rows, s.id ≠ r.id}, (log.put r fresh).Sound →
      log.current ≤ (log.put r fresh).current := by
    intro r fresh hsound
    rw [h.current_put hsound]
    exact Int.le_max_left _ _
  cases hstep with
  | create _ => exact hput hafter.toSound
  | update _ => exact hput hafter.toSound
  | delete _ => exact hput hafter.toSound
  | compacted _ _ => exact Int.le_refl _
  | compact habove hle => exact Int.le_of_eq (h.current_compact habove hle).symm
  | fill _ => exact hput hafter.toSound

end Log

/-! ## Requests -/

/-- What clients ask of a log. Placeholders are the business of watchers alone. -/
inductive Request
  | create (name : String) (value : Octets) (lease : Int)
  | update (name : String) (value : Octets) (expected lease : Int)
  | delete (name : String) (expected : Int)
  | compact (revision : Int)
  deriving DecidableEq, Repr

namespace Request

/-- The operation that a request asks for. -/
def op : Request → Op
  | create name value lease => .create name value lease
  | update name value expected lease => .update name value expected lease
  | delete name expected => .delete name expected
  | compact revision => .compact revision

/-- Whether a request asks for a compaction. -/
def isCompact : Request → Bool
  | compact _ => true
  | _ => false

end Request

namespace Log

variable {log log' : Log}

/-- No revision above the floor is without a row, no row is a placeholder, and the current revision
is the greatest id ever given. -/
structure Dense (log : Log) : Prop extends Intact log where
  abreast : log.Abreast
  row : ∀ id, log.floor < id → id ≤ log.current → ∃ r ∈ log.rows, r.id = id
  genuine : ∀ e ∈ log.entries, e.isGap = false

theorem dense_empty : Dense { indexing := .linkFirst } where
  toIntact := ⟨sound_empty _, rfl⟩
  abreast := abreast_empty _
  row id hlt hle := absurd (Int.lt_of_lt_of_le hlt hle) (Int.lt_irrefl 0)
  genuine e he := by cases he

namespace Dense

/-- The next id is one above the current revision. -/
theorem reached_eq_current (h : log.Dense) : log.reached = log.current := by
  rw [h.reached_eq, h.abreast]

theorem current_written (h : log.Dense) {d : Draft} (hd : log.Continues d) :
    (log.written d).current = log.current + 1 := by
  have hput := h.current_put (h.toSound.written hd)
  have hid : (d.toRow (log.reached + 1)).id = log.reached + 1 := rfl
  have hreached := h.reached_eq_current
  rw [written, hput]
  omega

/-- A row that continues a chain leaves no gap. -/
theorem written (h : log.Dense) {d : Draft} (hd : log.Continues d) : (log.written d).Dense where
  toIntact := ⟨h.toSound.written hd, h.indexed⟩
  abreast := h.abreast_put (h.toSound.written hd) h.abreast
  row id hlt hle := by
    rw [h.current_written hd] at hle
    rcases Int.lt_or_le log.current id with hnew | hold
    · refine ⟨d.toRow (log.reached + 1), mem_rows_put.2 (Or.inl rfl), ?_⟩
      have hreached := h.reached_eq_current
      show log.reached + 1 = id
      omega
    · obtain ⟨r, hr, hid⟩ := h.row id hlt hold
      exact ⟨r, mem_rows_put.2 (Or.inr hr), hid⟩
  genuine := forall_entries_put hd.gap h.genuine

/-- Compaction takes away rows at or below the new floor only. -/
theorem compact (h : log.Dense) {revision : Int} (habove : log.floor < revision)
    (hle : revision ≤ log.current) : (log.compact revision).2.Dense where
  toIntact := ⟨h.toSound.compact habove hle, h.indexed⟩
  abreast := (h.current_compact habove hle).trans h.abreast
  row id hlt hcurrent := by
    rw [h.floor_compact habove] at hlt
    rw [h.current_compact habove hle] at hcurrent
    obtain ⟨r, hr, hid⟩ := h.row id (by omega) hcurrent
    have hkept : r.toEntry ∈ (log.compact revision).2.entries := by
      refine h.mem_entries_compact_of_lt (List.mem_map_of_mem hr) ?_
      rw [Row.revision_toEntry]
      omega
    obtain ⟨s, hs, hsr⟩ := mem_entries.1 hkept
    exact ⟨s, hs, (congrArg Entry.revision hsr).trans hid⟩
  genuine e he := h.genuine e (h.mem_entries_compact.1 he).1

/-- What a request that succeeds makes of a dense log: a write gets the next revision, and a
compaction leaves the current revision as it is. -/
theorem step (h : log.Dense) (request : Request) {n : Int} (hstep : request.op.Step log n log') :
    log'.Dense ∧ log.floor ≤ log'.floor ∧
      if request.isCompact then log'.current = log.current else n = log.current + 1 ∧
          log'.current = n := by
  have hfloor := h.floor_step hstep
  have hreached := h.reached_eq_current
  cases request with
  | create name value lease =>
    cases hstep with
    | create hfree =>
      have hd : log.Continues (log.birth name value lease) := continues_birth hfree
      exact ⟨h.written hd, hfloor, by omega, by rw [h.current_written hd, hreached]⟩
  | update name value expected lease =>
    cases hstep with
    | @update _ p _ _ hhead =>
      have hd : log.Continues (sequel p false value lease) := continues_sequel hhead
      exact ⟨h.written hd, hfloor, by omega, by rw [h.current_written hd, hreached]⟩
  | delete name expected =>
    cases hstep with
    | @delete _ p hhead =>
      have hd : log.Continues (sequel p true [] 0) := continues_sequel hhead
      exact ⟨h.written hd, hfloor, by omega, by rw [h.current_written hd, hreached]⟩
  | compact revision =>
    cases hstep with
    | compacted _ _ => exact ⟨h, hfloor, rfl⟩
    | compact habove hle => exact ⟨h.compact habove hle, hfloor, h.current_compact habove hle⟩

end Dense

end Log

end RevisionLog
