import RevisionLog.Proofs.Plain
import RevisionLog.Store

/-!
# Answers on a tidy log

On a tidy log no question fails, and each is answered from the entries alone.

* `Log.current` — the highest revision ever given, as a number.
* `Log.chain` — the states of a name that are still there, in order; placeholders are none.
* `Log.Tidy.entryOf_latest`, `entryOf_atRevision`, `liveEntry_of_mem` — single rows, read off the
  chain of a name.
* `Log.Tidy.resolve_eq`, `get_eq` — reads at a revision.
-/

namespace RevisionLog

open Store

theorem Store.ask_eq_ok {α : Type} {answer : Except Fault α} {a : α} :
    ask answer = .ok a ↔ answer = .ok a := by
  rcases answer with fault | b <;> simp [ask, Except.mapError]

/-- Whether an entry is a state of a name, and no placeholder. -/
def Entry.isStateOf (name : String) (e : Entry) : Bool := e.name = name && !e.isGap

namespace Log

/-- The states of a name that are still there, in order. -/
def chain (log : Log) (name : String) : List Entry := log.entries.filter (·.isStateOf name)

theorem mem_chain {log : Log} {name : String} {e : Entry} :
    e ∈ log.chain name ↔ e ∈ log.entries ∧ e.name = name ∧ e.isGap = false := by
  simp [chain, Entry.isStateOf]

theorem pairwise_chain (log : Log) (name : String) :
    (log.chain name).Pairwise (·.revision < ·.revision) :=
  log.pairwise_entries.filter _

theorem id_le_greatest {log : Log} {r : Row} (hr : r ∈ log.rows) : r.id ≤ log.greatest?.getD 0 := by
  have hmem : r.id ∈ log.ids := List.mem_map_of_mem hr
  rcases hmax : log.greatest? with _ | g
  · rw [greatest?, List.max?_eq_none_iff] at hmax
    rw [hmax] at hmem
    cases hmem
  · exact (List.max?_eq_some_iff.1 hmax).2 _ hmem

/-- The highest revision ever given. The highest row may be gone, so the floor counts too. -/
def current (log : Log) : Int := max (log.greatest?.getD 0) log.floor

theorem floor_le_current (log : Log) : log.floor ≤ log.current := Int.le_max_right _ _

theorem id_le_current {log : Log} {r : Row} (hr : r ∈ log.rows) : r.id ≤ log.current :=
  Int.le_trans (id_le_greatest hr) (Int.le_max_left _ _)

theorem revision_le_current {log : Log} {e : Entry} (he : e ∈ log.entries) :
    e.revision ≤ log.current := by
  obtain ⟨r, hr, rfl⟩ := mem_entries.1 he
  exact id_le_current hr

/-- A name has no state above the current revision. -/
theorem filter_chain_current (log : Log) (name : String) :
    (log.chain name).filter (·.revision ≤ log.current) = log.chain name :=
  List.filter_eq_self.2 fun _ he => decide_eq_true (revision_le_current (mem_chain.1 he).1)

theorem row?_of_mem {log : Log} {r : Row} (hr : r ∈ log.rows) : log.row? r.id = some r := by
  rcases hfind : log.row? r.id with _ | s
  · have hne := List.find?_eq_none.1 hfind r hr
    simp at hne
  · have hid : s.id = r.id := by simpa using List.find?_some hfind
    rw [row_eq_of_id_eq (List.mem_of_find?_eq_some hfind) hr hid]

namespace Tidy

variable {log : Log}

theorem entry_eq (h : log.Tidy) {r : Row} (hr : r ∈ log.rows) : r.entry = .ok r.toEntry :=
  (h.plain r hr).entry_eq

/-- The rows that a condition selects stand for the entries that the same condition on entries
selects. -/
theorem map_filter_rows (h : log.Tidy) {p : Row → Bool} {q : Entry → Bool}
    (hpq : ∀ r ∈ log.rows, r.IsPlain → p r = q r.toEntry) :
    (log.rows.filter p).map Row.toEntry = log.entries.filter q := by
  rw [entries, List.filter_map]
  congr 1
  exact List.filter_congr fun r hr => hpq r hr (h.plain r hr)

/-! ## The two revisions -/

theorem compactedTo_eq (h : log.Tidy) : log.compactedTo = .ok log.floor := by
  rcases hw : log.watermark with _ | c
  · simp [Log.compactedTo, floor, hw]
  · obtain ⟨n, rfl⟩ := h.watermark c hw
    simp [Log.compactedTo, floor, hw, Row.readIntOrZero, Row.readInt, Cell.toInt]

/-- The greater of two integers is read as such. -/
theorem read_greater (m n : Int) :
    Row.readIntOrZero 0 currentColumn
      (if (Cell.integer m).order (.integer n) = .lt then .integer n else .integer m) =
        .ok (max m n) := by
  simp only [Cell.order, Int.compare_eq_lt]
  split
  · next hlt => rw [Int.max_eq_right (Int.le_of_lt hlt)]; rfl
  · next hge => rw [Int.max_eq_left (Int.not_lt.1 hge)]; rfl

theorem currentRevision_eq (h : log.Tidy) : log.currentRevision = .ok log.current := by
  rcases hw : log.watermark with _ | c
  · simp only [Log.currentRevision, hw, current, floor]
    exact read_greater _ _
  · obtain ⟨n, rfl⟩ := h.watermark c hw
    simp only [Log.currentRevision, hw, current, floor]
    exact read_greater _ _

/-! ## Single rows -/

theorem entryOf_eq (h : log.Tidy) {row : Option Row} (hmem : ∀ r, row = some r → r ∈ log.rows) :
    entryOf row = .ok (row.map Row.toEntry) := by
  rcases row with _ | r
  · rfl
  · rw [entryOf, h.entry_eq (hmem r rfl)]
    rfl

/-- The last row of a name is the end of its chain. -/
theorem entryOf_latest (h : log.Tidy) (name : String) :
    entryOf (log.latest? name) = .ok (log.chain name).getLast? := by
  have hrows := h.map_filter_rows (p := fun r => r.isNamed name && !r.isGap)
    (q := Entry.isStateOf name) (by
      intro r _ hr
      rw [hr.isNamed_eq, hr.isGap_eq, Entry.isStateOf])
  rw [latest?, h.entryOf_eq fun r hr => (List.mem_filter.1 (List.mem_of_getLast? hr)).1,
    ← List.getLast?_map, hrows, chain]

/-- The row of a name at a revision is the end of its chain up to there. -/
theorem entryOf_atRevision (h : log.Tidy) (name : String) (revision : Int) :
    entryOf (log.atRevision? name revision) =
      .ok ((log.chain name).filter (·.revision ≤ revision)).getLast? := by
  have hrows := h.map_filter_rows (p := fun r => r.isNamed name && r.id ≤ revision && !r.isGap)
    (q := fun e => decide (e.revision ≤ revision) && e.isStateOf name) (by
      intro r _ hr
      rw [hr.isNamed_eq, hr.isGap_eq, Entry.isStateOf, Row.revision_toEntry, Bool.and_assoc,
        Bool.and_left_comm])
  rw [atRevision?, h.entryOf_eq fun r hr => (List.mem_filter.1 (List.mem_of_getLast? hr)).1,
    ← List.getLast?_map, hrows, chain, List.filter_filter]

/-- The live entry that a writer names is found. -/
theorem liveEntry_of_mem (h : log.Tidy) {e : Entry} (he : e ∈ log.entries)
    (hlive : e.deleted = false) : liveEntry log e.name e.revision = .ok e := by
  obtain ⟨r, hr, rfl⟩ := mem_entries.1 he
  have hnamed : r.isNamed r.toEntry.name = true := by
    rw [(h.plain r hr).isNamed_eq]
    exact decide_eq_true rfl
  have hrow : log.byId? r.toEntry.revision r.toEntry.name = some r := by
    rw [byId?, Row.revision_toEntry, row?_of_mem hr, Option.filter_some, if_pos hnamed]
  rw [liveEntry, hrow, h.entryOf_eq fun s hs => Option.some.inj hs ▸ hr]
  simp [bind, Except.bind, hlive, pure, Except.pure]

/-- Nothing but a live entry is found under the revision that a writer names. -/
theorem liveEntry_of_forall (h : log.Tidy) {name : String} {expected : Int}
    (hnone : ∀ e ∈ log.entries, e.revision = expected → e.name = name → e.deleted = true) :
    liveEntry log name expected = .error .keyExists := by
  have hmem : ∀ r, log.byId? expected name = some r → r ∈ log.rows := by
    intro r hr
    exact List.mem_of_find?_eq_some (Option.filter_eq_some_iff.1 hr).1
  rw [liveEntry, h.entryOf_eq hmem]
  rcases hrow : log.byId? expected name with _ | r
  · rfl
  · obtain ⟨hfind, hnamed⟩ := Option.filter_eq_some_iff.1 hrow
    have hr := hmem r hrow
    rw [(h.plain r hr).isNamed_eq, decide_eq_true_iff] at hnamed
    have hid : r.id = expected := by simpa using List.find?_some hfind
    have hdeleted := hnone r.toEntry (List.mem_map_of_mem hr) hid hnamed
    simp [bind, Except.bind, hdeleted, throw, throwThe, MonadExceptOf.throw]

/-! ## Reads -/

theorem store_currentRevision (h : log.Tidy) : Store.currentRevision log = .ok log.current := by
  rw [Store.currentRevision, h.currentRevision_eq]
  rfl

theorem store_compactedTo (h : log.Tidy) : Store.compactedTo log = .ok log.floor := by
  rw [Store.compactedTo, h.compactedTo_eq]
  rfl

/-- Zero stands for the current revision, and any other one has to lie between the floor and the
current one. -/
theorem resolve_eq (h : log.Tidy) (revision : Int) :
    resolve log revision =
      if revision = 0 then .ok log.current
      else if log.current < revision then .error (.futureRevision revision log.current)
      else if revision < log.floor then .error (.compacted revision log.floor)
      else .ok revision := by
  rw [resolve, h.store_currentRevision, h.store_compactedTo]
  simp only [bind, Except.bind, pure, Except.pure]
  split
  · rfl
  · split
    · rfl
    · split
      · rfl
      · rfl

/-- A read at a revision that can be read answers the end of the chain up to there, unless it
deletes. -/
theorem get_eq (h : log.Tidy) {revision at' : Int} (name : String)
    (hr : resolve log revision = .ok at') :
    Store.get log name revision =
      .ok (((log.chain name).filter (·.revision ≤ at')).getLast?.filter fun e => !e.deleted) := by
  rw [Store.get, hr]
  simp only [bind, Except.bind]
  rw [h.entryOf_atRevision]
  rfl

end Tidy

end Log

end RevisionLog
