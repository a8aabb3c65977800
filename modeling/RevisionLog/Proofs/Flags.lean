import RevisionLog.Proofs.Rebuilding

/-!
# Flags without a value

The table admits rows that the store never writes, whose flags have no value. A row is looked at in
two ways. The selections ask for conditions on its columns, which are unknown where a flag has no
value, and keep it only if they are true. The reader takes such a flag for one that is not set. So a
row can be a state to the reader and be passed over by the selections, and a live state to the
reader and be left out of a list.

* `Row.IsCounted`, `Row.IsState` — what the selections take for a state, and what the reader does.
* `Row.IsAdmitted.agrees_iff` — the rows that look the same in both ways are those whose flags have
  values.
* `Log.IsLast` — the last row of a name with a property, up to a revision.
* `Log.reads_by_flags` — what reads of single names and lists answer on any table of admitted rows.
* `Log.exists_unflagged` — rows that the reader takes for live states, and no list has.
-/

namespace RevisionLog

/-- A cell without a value is not known to be zero. -/
theorem Cell.holds_isZero_iff {c : Cell} (h : c = .null ∨ ∃ n, c = .integer n) :
    c.isZero.holds = true ↔ c = .integer 0 := by
  rcases h with rfl | ⟨n, rfl⟩ <;> simp

/-! ## Rows -/

namespace Row

/-- The selections take a row for a state if one of its flags is known not to be set. -/
def IsCounted (r : Row) : Prop := r.created = .integer 0 ∨ r.deleted = .integer 0

/-- The reader takes a row for a state if its entry is no placeholder. -/
def IsState (r : Row) : Prop := ∃ e, r.entry = .ok e ∧ e.isGap = false

/-- The flags of a row have values, but the first one need not where the other one is known not to
be set. -/
def HasFlags (r : Row) : Prop := r.deleted ≠ .null ∧ (r.created ≠ .null ∨ r.deleted = .integer 0)

/-- A row looks the same to the selections and to the reader, as a state and as a live one. -/
structure Agrees (r : Row) : Prop where
  state : r.isGap = r.toEntry.isGap
  live : r.isGap = false → r.isLive = !r.toEntry.deleted

namespace IsAdmitted

variable {r : Row}

theorem isGap_eq_false_iff (h : r.IsAdmitted) : r.isGap = false ↔ r.IsCounted := by
  rw [isGap, notGap, Truth.holds_not_and, flag, flag, Truth.not_not, Truth.not_not,
    Bool.not_eq_false', Bool.or_eq_true, Cell.holds_isZero_iff h.created,
    Cell.holds_isZero_iff h.deleted, IsCounted]

theorem isLive_iff (h : r.IsAdmitted) : r.isLive = true ↔ r.deleted = .integer 0 :=
  Cell.holds_isZero_iff h.deleted

theorem isState_iff (h : r.IsAdmitted) : r.IsState ↔ r.toEntry.isGap = false := by
  simp [IsState, h.entry_eq]

/-- Whatever the selections count the reader takes for a state. -/
theorem isState_of_isCounted (h : r.IsAdmitted) (hcounted : r.IsCounted) : r.IsState := by
  rw [h.isState_iff]
  rcases hcounted with hcreated | hdeleted
  · simp [Entry.isGap, toEntry, hcreated, Cell.toInt]
  · simp [Entry.isGap, toEntry, hdeleted, Cell.toInt]

/-- **The rows that look the same in both ways** are those whose flags have values. -/
theorem agrees_iff (h : r.IsAdmitted) : r.Agrees ↔ r.HasFlags := by
  have hstate : r.isGap = r.toEntry.isGap ↔ (r.IsCounted ↔ r.toEntry.isGap = false) := by
    rw [← h.isGap_eq_false_iff]
    cases r.isGap <;> cases r.toEntry.isGap <;> simp
  have hlive : r.isLive = (!r.toEntry.deleted) ↔
      (r.deleted = .integer 0 ↔ r.toEntry.deleted = false) := by
    rw [← h.isLive_iff]
    cases r.isLive <;> cases r.toEntry.deleted <;> simp
  have hagrees : r.Agrees ↔ (r.IsCounted ↔ r.toEntry.isGap = false) ∧
      (r.IsCounted → (r.deleted = .integer 0 ↔ r.toEntry.deleted = false)) := by
    rw [← hstate, ← hlive, ← h.isGap_eq_false_iff]
    exact ⟨fun hr => ⟨hr.state, hr.live⟩, fun hr => ⟨hr.1, hr.2⟩⟩
  rw [hagrees, IsCounted, HasFlags]
  -- each flag has a value or none
  rcases h.created with hc | ⟨c, hc⟩ <;> rcases h.deleted with hd | ⟨d, hd⟩
  all_goals simp [Entry.isGap, toEntry, hc, hd, Cell.toInt]
  all_goals omega

end IsAdmitted

/-- A row of a name with these flags, and nothing else. -/
def flagged (id : Int) (name : String) (created deleted : Cell) : Row where
  id := id
  name := .text name
  created := created
  deleted := deleted
  createRevision := .integer 0
  prevRevision := .null
  lease := .null
  value := .null
  oldValue := .null

theorem isAdmitted_flagged {id : Int} {name : String} {created deleted : Cell}
    (hcreated : created = .null ∨ ∃ n, created = .integer n)
    (hdeleted : deleted = .null ∨ ∃ n, deleted = .integer n) :
    (flagged id name created deleted).IsAdmitted :=
  ⟨⟨_, rfl⟩, hcreated, hdeleted, ⟨_, rfl⟩, .inl rfl, .inl rfl⟩

end Row

/-! ## Last rows -/

namespace Log

variable {log : Log} {p q : Row → Prop} {name : String} {revision at' : Int} {r s : Row}

/-- The last row of a name with a property, up to a revision. -/
structure IsLast (log : Log) (p : Row → Prop) (name : String) (revision : Int) (r : Row) :
    Prop where
  mem : r ∈ log.rows
  named : r.name = .text name
  le : r.id ≤ revision
  meets : p r
  last : ∀ s ∈ log.rows, s.name = .text name → s.id ≤ revision → p s → s.id ≤ r.id

namespace IsLast

/-- There is one last row. -/
theorem eq (hr : log.IsLast p name revision r) (hs : log.IsLast p name revision s) : r = s :=
  row_eq_of_id_eq hr.mem hs.mem (Int.le_antisymm (hs.last r hr.mem hr.named hr.le hr.meets)
    (hr.last s hs.mem hs.named hs.le hs.meets))

/-- The last of more rows is the last of those it is one of. -/
theorem of_imp (hpq : ∀ s ∈ log.rows, p s → q s) (hr : log.IsLast q name revision r)
    (hmeets : p r) : log.IsLast p name revision r :=
  ⟨hr.mem, hr.named, hr.le, hmeets, fun s hs hname hle hp => hr.last s hs hname hle (hpq s hs hp)⟩

theorem congr (hpq : ∀ s ∈ log.rows, p s ↔ q s) :
    log.IsLast p name revision r ↔ log.IsLast q name revision r :=
  ⟨fun hr => of_imp (fun s hs => (hpq s hs).2) hr ((hpq r hr.mem).1 hr.meets),
    fun hr => of_imp (fun s hs => (hpq s hs).1) hr ((hpq r hr.mem).2 hr.meets)⟩

end IsLast

/-- The last of the rows that a condition selects. -/
theorem getLast?_filter_eq_some_iff {condition : Row → Bool}
    (hcondition : ∀ s, condition s = true ↔ s.name = .text name ∧ s.id ≤ revision ∧ p s) :
    (log.rows.filter condition).getLast? = some r ↔ log.IsLast p name revision r := by
  rw [getLast?_filter_eq_some log.ordered]
  simp only [hcondition]
  constructor
  · rintro ⟨hmem, ⟨hname, hle, hmeets⟩, hlast⟩
    exact ⟨hmem, hname, hle, hmeets, fun s hs hname hle hmeets => hlast s hs ⟨hname, hle, hmeets⟩⟩
  · intro hr
    exact ⟨hr.mem, ⟨hr.named, hr.le, hr.meets⟩,
      fun s hs hsel => hr.last s hs hsel.1 hsel.2.1 hsel.2.2⟩

/-- Where there is a row with a property, there is a last one. -/
theorem exists_isLast (hr : r ∈ log.rows) (hname : r.name = .text name) (hle : r.id ≤ revision)
    (hmeets : p r) : ∃ s, log.IsLast p name revision s := by
  classical
  let condition : Row → Bool := fun s => decide (s.name = .text name ∧ s.id ≤ revision ∧ p s)
  rcases hlast : (log.rows.filter condition).getLast? with _ | s
  · have hmem : r ∈ log.rows.filter condition :=
      List.mem_filter.2 ⟨hr, decide_eq_true ⟨hname, hle, hmeets⟩⟩
    rw [List.getLast?_eq_none_iff.1 hlast] at hmem
    cases hmem
  · exact ⟨s, (getLast?_filter_eq_some_iff fun s => decide_eq_true_iff).1 hlast⟩

/-- The row of a name at a revision. -/
theorem atRevision?_eq_some : log.atRevision? name revision = some r ↔
    log.IsLast (fun s => s.isGap = false) name revision r := by
  refine getLast?_filter_eq_some_iff fun s => ?_
  simp [Row.isNamed, and_assoc]

/-- The live rows of all names. -/
theorem mem_liveRows_all (hname : r.name = .text name) :
    r ∈ log.liveRows (Pattern.ofPrefix "") revision ↔
    log.IsLast (fun s => s.isGap = false) name revision r ∧ r.isLive = true := by
  rw [liveRows, lastRows, lastOfNames_eq_filter (log.ordered.filter _)]
  simp only [List.mem_filter, Bool.and_eq_true, decide_eq_true_eq, Bool.not_eq_true',
    Pattern.selectsRead_ofPrefix_empty, and_true, hname]
  refine and_congr_left fun _ => ?_
  constructor
  · rintro ⟨⟨hmem, hle, hgap⟩, hlast⟩
    exact ⟨hmem, hname, hle, hgap, fun s hs hname hle hgap => hlast s ⟨hs, hle, hgap⟩ hname⟩
  · intro hr
    exact ⟨⟨hr.mem, hr.le, hr.meets⟩, fun s hs hname => hr.last s hs.1 hname hs.2.1 hs.2.2⟩

/-! ## Reads -/

/-- What a read of a name answers: the last row that is counted, if the reader does not take it for
a deletion. -/
theorem get_by_flags (hadmitted : ∀ r ∈ log.rows, r.IsAdmitted)
    (hresolve : Store.resolve log revision = .ok at') (name : String) :
    ∃ found, Store.get log name revision = .ok found ∧
      ∀ e, found = some e ↔ ∃ r, log.IsLast Row.IsCounted name at' r ∧ r.entry = .ok e ∧
        e.deleted = false := by
  have hlast : ∀ r, log.atRevision? name at' = some r ↔ log.IsLast Row.IsCounted name at' r := by
    intro r
    rw [atRevision?_eq_some]
    exact IsLast.congr fun s hs => (hadmitted s hs).isGap_eq_false_iff
  have hentry : Store.entryOf (log.atRevision? name at') =
      .ok ((log.atRevision? name at').map Row.toEntry) := by
    rcases hrow : log.atRevision? name at' with _ | r
    · rfl
    · rw [Store.entryOf, (hadmitted r ((hlast r).1 hrow).mem).entry_eq]
      rfl
  have hget : Store.get log name revision =
      .ok (((log.atRevision? name at').map Row.toEntry).filter fun e => !e.deleted) := by
    rw [Store.get, hresolve]
    simp only [bind, Except.bind, hentry]
    rfl
  refine ⟨_, hget, fun e => ?_⟩
  rw [Option.filter_eq_some_iff, Option.map_eq_some_iff, Bool.not_eq_true']
  constructor
  · rintro ⟨⟨r, hrow, rfl⟩, hlive⟩
    have hr := (hlast r).1 hrow
    exact ⟨r, hr, (hadmitted r hr.mem).entry_eq, hlive⟩
  · rintro ⟨r, hr, he, hlive⟩
    rw [(hadmitted r hr.mem).entry_eq, Except.ok.injEq] at he
    exact ⟨⟨r, (hlast r).2 hr, he⟩, hlive⟩

/-- What a list has: the last rows that are counted, where a flag tells that they do not delete. -/
theorem list_by_flags (hadmitted : ∀ r ∈ log.rows, r.IsAdmitted)
    (hresolve : Store.resolve log revision = .ok at') :
    ∃ es, Store.list log "" 0 revision = .ok es ∧ ∀ name e, e ∈ es ∧ e.name = name ↔
      ∃ r, log.IsLast Row.IsCounted name at' r ∧ r.entry = .ok e ∧ r.deleted = .integer 0 := by
  have hlive : ∀ r ∈ log.liveRows (Pattern.ofPrefix "") at', r ∈ log.rows := by
    intro r hr
    rw [liveRows, lastRows, lastOfNames_eq_filter (log.ordered.filter _)] at hr
    exact (List.mem_filter.1 (List.mem_filter.1 (List.mem_filter.1 hr).1).1).1
  have hrows : ∀ r ∈ byName (log.liveRows (Pattern.ofPrefix "") at'), r.IsAdmitted :=
    fun r hr => hadmitted r (hlive r (List.mem_mergeSort.1 hr))
  refine ⟨(byName (log.liveRows (Pattern.ofPrefix "") at')).map Row.toEntry, ?_, fun name e => ?_⟩
  · have hshort : log.checkPattern (Pattern.ofPrefix "") at' = .ok () :=
      if_neg fun hlong => absurd hlong.1 (by decide)
    rw [Store.list, hresolve]
    simp only [bind, Except.bind, Log.list]
    rw [if_neg (by decide), hshort, limited, if_pos rfl, mapM_entry_of_admitted hrows]
    rfl
  · have hmem : ∀ r ∈ log.rows, r.name = .text name → (r ∈ log.liveRows (Pattern.ofPrefix "") at' ↔
        log.IsLast Row.IsCounted name at' r ∧ r.deleted = .integer 0) := by
      intro r hr hname
      rw [mem_liveRows_all hname, IsLast.congr fun s hs => (hadmitted s hs).isGap_eq_false_iff,
        (hadmitted r hr).isLive_iff]
    simp only [List.mem_map, byName, List.mem_mergeSort]
    constructor
    · rintro ⟨⟨r, hr, rfl⟩, hname⟩
      have hrow := hlive r hr
      have hnamed : r.name = .text name := by
        obtain ⟨s, hs⟩ := (hadmitted r hrow).name
        rw [← hname, Row.toEntry, hs, Cell.toText]
      obtain ⟨hlast, hzero⟩ := (hmem r hrow hnamed).1 hr
      exact ⟨r, hlast, (hadmitted r hrow).entry_eq, hzero⟩
    · rintro ⟨r, hlast, he, hzero⟩
      rw [(hadmitted r hlast.mem).entry_eq, Except.ok.injEq] at he
      subst he
      refine ⟨⟨r, (hmem r hlast.mem hlast.named).2 ⟨hlast, hzero⟩, rfl⟩, ?_⟩
      rw [Row.toEntry, hlast.named, Cell.toText]

/-- If the last state that the reader sees has flags, it is the last one that is counted. -/
theorem isLast_isCounted_iff (hadmitted : ∀ r ∈ log.rows, r.IsAdmitted)
    (hflags : ∀ x, log.IsLast Row.IsState name at' x → x.HasFlags) :
    log.IsLast Row.IsCounted name at' r ↔ log.IsLast Row.IsState name at' r := by
  have hstates : ∀ s ∈ log.rows, s.IsCounted → s.IsState :=
    fun s hs => (hadmitted s hs).isState_of_isCounted
  have hlast : ∀ {x}, log.IsLast Row.IsState name at' x → log.IsLast Row.IsCounted name at' x := by
    intro x hx
    have hadm := hadmitted x hx.mem
    have hagrees := hadm.agrees_iff.2 (hflags x hx)
    refine hx.of_imp hstates (hadm.isGap_eq_false_iff.1 ?_)
    rw [hagrees.state, ← hadm.isState_iff]
    exact hx.meets
  refine ⟨fun hr => ?_, hlast⟩
  obtain ⟨x, hx⟩ := exists_isLast hr.mem hr.named hr.le (hstates r hr.mem hr.meets)
  rw [hr.eq (hlast hx)]
  exact hx

/-- What a read of a name finds, and what a list of all names has of it, as the flags of its last
rows tell. -/
structure ByFlags (log : Log) (name : String) (revision : Int) (found : Option Entry)
    (es : List Entry) : Prop where
  /-- the last row that the selections count, unless the reader takes it for a deletion -/
  found_iff : ∀ e, found = some e ↔
    ∃ r, log.IsLast Row.IsCounted name revision r ∧ r.entry = .ok e ∧ e.deleted = false
  /-- the same row, if it is known to be none -/
  listed_iff : ∀ e, e ∈ es ∧ e.name = name ↔
    ∃ r, log.IsLast Row.IsCounted name revision r ∧ r.entry = .ok e ∧ r.deleted = .integer 0
  /-- if the last state that the reader sees has flags, then it is what both answer, unless it is a
  deletion -/
  agree : (∀ x, log.IsLast Row.IsState name revision x → x.HasFlags) → ∀ e,
    (found = some e ↔ ∃ x, log.IsLast Row.IsState name revision x ∧ x.entry = .ok e ∧
      e.deleted = false) ∧
    (e ∈ es ∧ e.name = name ↔ found = some e)
  /-- a last state that the reader takes for a live one is in the list exactly if it has flags -/
  live : ∀ x e, log.IsLast Row.IsState name revision x → x.entry = .ok e → e.deleted = false →
    (e ∈ es ↔ x.HasFlags)

/-- **Reads on a table of admitted rows.** At every revision that can be read, a list of all
names and reads of single names answer what the flags of the last rows tell: the same as the
reader sees in these rows where the flags have values, and a list misses the live states where
they have none. -/
theorem reads_by_flags (hadmitted : ∀ r ∈ log.rows, r.IsAdmitted)
    (hresolve : Store.resolve log revision = .ok at') :
    ∃ es, Store.list log "" 0 revision = .ok es ∧
      ∀ name, ∃ found, Store.get log name revision = .ok found ∧ log.ByFlags name at' found es := by
  obtain ⟨es, hlist, hlisted⟩ := list_by_flags hadmitted hresolve
  refine ⟨es, hlist, fun name => ?_⟩
  obtain ⟨found, hget, hfound⟩ := get_by_flags hadmitted hresolve name
  have hagree : (∀ x, log.IsLast Row.IsState name at' x → x.HasFlags) → ∀ e,
      (found = some e ↔ ∃ x, log.IsLast Row.IsState name at' x ∧ x.entry = .ok e ∧
        e.deleted = false) ∧
      (e ∈ es ∧ e.name = name ↔ found = some e) := by
    intro hflags e
    refine ⟨?_, ?_⟩
    · rw [hfound e]
      exact exists_congr fun r => and_congr_left fun _ => isLast_isCounted_iff hadmitted hflags
    · rw [hlisted name e, hfound e]
      refine exists_congr fun r => and_congr_right fun hr => and_congr_right fun he => ?_
      -- the row is the last state too, so its flags tell what the reader takes it for
      have hadm := hadmitted r hr.mem
      have hagrees := hadm.agrees_iff.2 (hflags r ((isLast_isCounted_iff hadmitted hflags).1 hr))
      have hlive := hagrees.live (hadm.isGap_eq_false_iff.2 hr.meets)
      rw [hadm.entry_eq, Except.ok.injEq] at he
      rw [← hadm.isLive_iff, hlive, he, Bool.not_eq_true']
  refine ⟨found, hget, hfound, hlisted name, hagree,
    fun x e hx he hlive => ⟨fun hmem => ?_, fun hflags => ?_⟩⟩
  · -- an entry that a list has was read from a row whose flag is known
    obtain ⟨r, hr, hentry, hzero⟩ := (hlisted e.name e).1 ⟨hmem, rfl⟩
    rw [(hadmitted r hr.mem).entry_eq, Except.ok.injEq] at hentry
    rw [(hadmitted x hx.mem).entry_eq, Except.ok.injEq] at he
    have hid : r.id = x.id := by rw [← Row.revision_toEntry, hentry, ← he, Row.revision_toEntry]
    rw [← row_eq_of_id_eq hr.mem hx.mem hid, Row.HasFlags, hzero]
    exact ⟨by simp, .inr rfl⟩
  · obtain ⟨hstate, hboth⟩ := hagree (fun y hy => hy.eq hx ▸ hflags) e
    exact (hboth.2 (hstate.2 ⟨x, hx, he, hlive⟩)).1

/-- The last row of the first name deletes it, but lacks the other flag, so a read still finds the
row before. The row of the second name may delete it, so a list misses what a read finds. The row of
the third may be no state at all. -/
theorem exists_reads_by_flags : ∃ log : Log,
    log.rows = [.flagged 1 "a" (.integer 1) (.integer 0), .flagged 2 "a" .null (.integer 1),
      .flagged 3 "b" (.integer 0) .null, .flagged 4 "c" .null .null] ∧
    (∀ r ∈ log.rows, r.IsAdmitted) ∧ Store.resolve log 0 = .ok 4 ∧
    ∃ es, Store.list log "" 0 0 = .ok es ∧
      ∀ name, ∃ found, Store.get log name 0 = .ok found ∧ log.ByFlags name 4 found es := by
  let rows : List Row :=
    [.flagged 1 "a" (.integer 1) (.integer 0), .flagged 2 "a" .null (.integer 1),
      .flagged 3 "b" (.integer 0) .null, .flagged 4 "c" .null .null]
  let log : Log := { rows, ordered := by decide, indexing := .linkFirst }
  have hadmitted : ∀ r ∈ log.rows, r.IsAdmitted := by
    simp only [log, rows, List.forall_mem_cons, List.not_mem_nil]
    exact ⟨Row.isAdmitted_flagged (.inr ⟨_, rfl⟩) (.inr ⟨_, rfl⟩),
      Row.isAdmitted_flagged (.inl rfl) (.inr ⟨_, rfl⟩),
      Row.isAdmitted_flagged (.inr ⟨_, rfl⟩) (.inl rfl),
      Row.isAdmitted_flagged (.inl rfl) (.inl rfl), by simp⟩
  have hresolve : Store.resolve log 0 = .ok 4 := by decide +kernel
  exact ⟨log, rfl, hadmitted, hresolve, reads_by_flags hadmitted hresolve⟩

/-- Two rows are live states to the reader. A read of the first name does not find its row, and a
list has neither. -/
theorem exists_unflagged :
    ∃ (log : Log) (x y : Row), log.rows = [x, y] ∧ (∀ r ∈ log.rows, r.IsAdmitted) ∧
    Store.resolve log 0 = .ok 2 ∧
    (log.IsLast Row.IsState "a" 2 x ∧ x.toEntry.deleted = false ∧ Store.get log "a" 0 = .ok none) ∧
    (log.IsLast Row.IsState "b" 2 y ∧ y.toEntry.deleted = false ∧
      Store.get log "b" 0 = .ok (some y.toEntry)) ∧
    Store.list log "" 0 0 = .ok [] := by
  let x : Row := .flagged 1 "a" (.integer 1) .null
  let y : Row := .flagged 2 "b" (.integer 0) .null
  let log : Log := { rows := [x, y], ordered := by decide, indexing := .linkFirst }
  have hadmitted : ∀ r ∈ log.rows, r.IsAdmitted := by
    simp only [log, List.forall_mem_cons, List.not_mem_nil]
    exact ⟨Row.isAdmitted_flagged (.inr ⟨_, rfl⟩) (.inl rfl),
      Row.isAdmitted_flagged (.inr ⟨_, rfl⟩) (.inl rfl), by simp⟩
  have hresolve : Store.resolve log 0 = .ok 2 := by decide +kernel
  have hx : log.IsLast Row.IsState "a" 2 x := by
    refine ⟨List.mem_cons_self, rfl, by decide, ⟨_, rfl, rfl⟩, ?_⟩
    simp [log, x, y, Row.flagged]
  have hy : log.IsLast Row.IsState "b" 2 y := by
    refine ⟨List.mem_cons_of_mem _ List.mem_cons_self, rfl, by decide, ⟨_, rfl, rfl⟩, ?_⟩
    simp [log, x, y, Row.flagged]
  obtain ⟨es, hlist, hlisted⟩ := list_by_flags hadmitted hresolve
  have hnone : es = [] := by
    refine List.eq_nil_iff_forall_not_mem.2 fun e he => ?_
    obtain ⟨r, hr, -, hzero⟩ := (hlisted e.name e).1 ⟨he, rfl⟩
    have hflag : ∀ r ∈ log.rows, r.deleted = .null := by simp [log, x, y, Row.flagged]
    rw [hflag r hr.mem] at hzero
    cases hzero
  rw [hnone] at hlist
  exact ⟨log, x, y, rfl, hadmitted, hresolve, ⟨hx, rfl, by decide +kernel⟩,
    ⟨hy, rfl, by decide +kernel⟩, hlist⟩

end Log

end RevisionLog
