import RevisionLog.Proofs.Density
import RevisionLog.Proofs.History
import RevisionLog.Proofs.Listing

/-!
# Chronicles

All states of all keys that were ever written, in order, whether their rows are still there or not.
Each state follows the one before it of the same key, and a log tells, of every revision that it can
still be read at, what the chronicle tells.

* `Entry.Succeeds`, `Chronicle` — how the states of a key follow each other.
* `view` — the live state of a name that states make.
* `Log.Recalls` — how the rows that are left and the chronicle hang together; every step keeps it
  so.
* `Log.course` — the states of a log in a run; `Log.exists_recollects` — one chronicle for all of
  them.
-/

namespace RevisionLog

/-! ## States that follow each other -/

/-- A state comes next after a state of the same key. A life begins where one has ended, and within
a life the link, the beginning and the replaced payload are those of the state before. -/
structure Entry.Succeeds (p e : Entry) : Prop where
  turn : e.created = p.deleted
  link : e.created = false → e.prevRevision = p.revision
  beginning : e.created = false → e.createRevision = p.createRevision
  replaced : e.created = false → e.oldValue = p.value

/-- The states of a name. -/
def statesOf (past : List Entry) (name : String) : List Entry := past.filter (·.name = name)

theorem statesOf_append (past later : List Entry) (name : String) :
    statesOf (past ++ later) name = statesOf past name ++ statesOf later name :=
  List.filter_append ..

theorem statesOf_concat (past : List Entry) (e : Entry) (name : String) :
    statesOf (past ++ [e]) name = if e.name = name then statesOf past name ++ [e]
      else statesOf past name := by
  rw [statesOf_append, statesOf, statesOf, List.filter_cons]
  split <;> simp_all

/-- A state comes next after all that were before: it begins the first life of its name, or succeeds
its last state. -/
def Entry.Follows (e : Entry) (past : List Entry) : Prop :=
  match (statesOf past e.name).getLast? with
  | none => e.created = true
  | some p => p.Succeeds e

/-- States in order, where each one comes next after all before it. -/
inductive Chronicle : List Entry → Prop
  | nil : Chronicle []
  | concat {past : List Entry} {e : Entry} : Chronicle past → 0 < e.revision →
    (∀ p ∈ past, p.revision < e.revision) → e.Follows past → Chronicle (past ++ [e])

/-- The live state of a name after states: the last one, unless it deletes. -/
def view (past : List Entry) (name : String) : Option Entry :=
  (statesOf past name).getLast?.filter fun e => !e.deleted

/-- The states up to a revision. -/
def upTo (past : List Entry) (revision : Int) : List Entry := past.filter (·.revision ≤ revision)

theorem upTo_eq_nil {past : List Entry} {revision : Int} (h : ∀ p ∈ past, revision < p.revision) :
    upTo past revision = [] := by
  refine List.filter_eq_nil_iff.2 fun p hp => ?_
  rw [decide_eq_true_iff]
  exact Int.not_le.2 (h p hp)

namespace Chronicle

variable {past later : List Entry}

theorem pairwise (h : Chronicle past) : past.Pairwise (·.revision < ·.revision) := by
  induction h with
  | nil => exact .nil
  | concat _ _ habove _ ih =>
    refine List.pairwise_append.2 ⟨ih, List.pairwise_singleton _ _, ?_⟩
    intro p hp e he
    rw [List.mem_singleton.1 he]
    exact habove p hp

theorem positive (h : Chronicle past) : ∀ p ∈ past, 0 < p.revision := by
  induction h with
  | nil =>
    intro p hp
    cases hp
  | concat _ hpos _ _ ih =>
    intro p hp
    rcases List.mem_append.1 hp with hp | hp
    · exact ih p hp
    · rwa [List.mem_singleton.1 hp]

/-- No two states have the same revision. -/
theorem eq_of_revision_eq (h : Chronicle past) {p q : Entry} (hp : p ∈ past) (hq : q ∈ past)
    (hrev : p.revision = q.revision) : p = q := Log.eq_of_key_eq h.pairwise hp hq hrev

/-- The last state of a chronicle comes next after all others, and these are a chronicle. -/
theorem of_concat {e : Entry} (h : Chronicle (past ++ [e])) : Chronicle past ∧ e.Follows past := by
  generalize hall : past ++ [e] = all at h
  cases h with
  | nil => simp at hall
  | concat hbefore _ _ hfollows =>
    obtain ⟨rfl, hlast⟩ := List.append_inj' hall rfl
    obtain rfl := List.singleton_inj.1 hlast
    exact ⟨hbefore, hfollows⟩

theorem of_append (h : Chronicle (past ++ later)) : Chronicle past := by
  induction later using List.reverseRecOn with
  | nil => rwa [List.append_nil] at h
  | append_singleton later e ih =>
    rw [← List.append_assoc] at h
    exact ih h.of_concat.1

/-- In a chronicle every state comes next after the ones before it. -/
theorem follows {e : Entry} (h : Chronicle (past ++ e :: later)) : e.Follows past := by
  rw [List.append_cons] at h
  exact h.of_append.of_concat.2

end Chronicle

/-! ## What a log recalls -/

/-- The write that a state came of. -/
def Entry.toWrite (e : Entry) : Write where
  revision := e.revision
  name := e.name
  created := e.created
  deleted := e.deleted
  lease := e.lease
  value := e.value

namespace Log

/-- A log whose chronicle this is: its states are states of the chronicle, its rows tell all that
the writes of the chronicle make of the keys, and no placeholder above the floor stands where a
state was written. -/
structure Recalls (log : Log) (past : List Entry) :
    Prop extends Faithful log (past.map Entry.toWrite) where
  chronicle : Chronicle past
  abreast : log.Abreast
  recorded : ∀ name, ∀ e ∈ log.chain name, e ∈ past
  unfilled : ∀ e ∈ log.entries, e.isGap = true → log.floor < e.revision →
    ∀ p ∈ past, p.revision ≠ e.revision

theorem recalls_empty : Recalls { indexing := .linkFirst } [] where
  toFaithful := faithful_empty
  chronicle := .nil
  abreast := abreast_empty _
  recorded name e he := by cases he
  unfilled e he := by cases he

variable {log log' : Log} {past : List Entry} {name : String}

namespace Recalls

theorem le_sequence (h : log.Recalls past) {p : Entry} (hp : p ∈ past) :
    p.revision ≤ log.sequence.getD 0 :=
  h.known p.toWrite (List.mem_map_of_mem hp)

/-- **A log tells what its chronicle tells**, at every revision that is not below the floor. -/
theorem liveAt?_eq (h : log.Recalls past) {revision : Int} (hfloor : log.floor ≤ revision)
    (name : String) : log.liveAt? name revision = view (upTo past revision) name := by
  have hread : (log.liveAt? name revision).map Entry.unlinked = _ := h.read_eq hfloor name
  have hwrites : Write.upTo (past.map Entry.toWrite) name revision =
      (statesOf (upTo past revision) name).map Entry.toWrite := by
    rw [Write.upTo, List.filter_map, statesOf, upTo, List.filter_filter]
    rfl
  rw [Write.readAt, hwrites] at hread
  rw [view]
  rcases hstate : Write.state? ((statesOf (upTo past revision) name).map Entry.toWrite) with _ |
    s <;> rw [hstate] at hread
  · rw [Write.state?, Option.map_eq_none_iff, List.getLast?_map, Option.map_eq_none_iff] at hstate
    rw [hstate]
    exact Option.map_eq_none_iff.1 hread
  · obtain ⟨w, hw, hrev, hdeleted, -⟩ := Write.exists_of_state? hstate
    rw [List.getLast?_map, Option.map_eq_some_iff] at hw
    obtain ⟨p, hlast, rfl⟩ := hw
    have hsame : s.deleted = p.deleted := hdeleted
    rw [hlast, Option.filter_some, ← hsame]
    rw [Option.filter_some] at hread
    split at hread
    · next hlive =>
      -- the live state has the revision of the last state of the chronicle, and so it is that one
      obtain ⟨e, he, rfl⟩ := Option.map_eq_some_iff.1 hread
      have hmem := h.recorded name e (liveAt?_eq_some.1 he).1
      have hp : p ∈ past := (List.mem_filter.1 (List.mem_filter.1 (List.mem_of_getLast? hlast)).1).1
      rw [he, if_pos hlive, h.chronicle.eq_of_revision_eq hmem hp hrev]
    · next hdead =>
      rw [if_neg hdead]
      exact Option.map_eq_none_iff.1 hread

/-- The head of a name is the last state of the chronicle, unless that one deletes. -/
theorem head?_eq (h : log.Recalls past) (name : String) : log.head? name = view past name := by
  have hpast : upTo past log.current = past := by
    refine List.filter_eq_self.2 fun p hp => decide_eq_true ?_
    rw [h.abreast]
    exact h.le_sequence hp
  rw [← log.liveAt?_current, h.liveAt?_eq log.floor_le_current, hpast]

/-- **A row that continues a chain is the next state of the chronicle.** -/
theorem written (h : log.Recalls past) {d : Draft} (hd : log.Continues d)
    (hfaithful : (log.written d).Faithful (past.map Entry.toWrite ++ [(log.upcoming d).toWrite]))
    (hfollows : (log.upcoming d).Follows past) :
    (log.written d).Recalls (past ++ [log.upcoming d]) := by
  have hreached := h.reached_eq
  have hnonneg := Int.le_trans h.floor_nonneg h.floor_le
  have hnew : ∀ p ∈ past, p.revision < (log.upcoming d).revision := by
    intro p hp
    have hle := h.le_sequence hp
    rw [revision_upcoming]
    omega
  refine
    { toFaithful := by rwa [List.map_append]
      chronicle := .concat h.chronicle (by rw [revision_upcoming]; omega) hnew hfollows
      abreast := h.abreast_put hfaithful.toSound h.abreast
      recorded := ?recorded
      unfilled := ?unfilled }
  case recorded =>
    intro name e he
    rw [hd.chain_written] at he
    split at he
    · rcases List.mem_append.1 he with he | he
      · exact List.mem_append_left _ (h.recorded name e he)
      · exact List.mem_append_right _ he
    · exact List.mem_append_left _ (h.recorded name e he)
  case unfilled =>
    refine forall_entries_put (fun hgap => ?_) ?_
    · have hstate := hd.gap
      rw [upcoming, hgap] at hstate
      cases hstate
    · intro e he hgap hfloor p hp
      rcases List.mem_append.1 hp with hp | hp
      · exact h.unfilled e he hgap hfloor p hp
      · have hle := h.remembered e he
        rw [List.mem_singleton.1 hp, revision_upcoming]
        omega

theorem written_sequel (h : log.Recalls past) {p : Entry} (hhead : log.head? name = some p)
    {deleted : Bool} {value : Octets} {lease : Int} :
    (log.written (sequel p deleted value lease)).Recalls
      (past ++ [log.upcoming (sequel p deleted value lease)]) := by
  have hname : p.name = name := (mem_chain.1 (List.mem_of_getLast? (head?_eq_some.1 hhead).1)).2.1
  refine h.written (continues_sequel hhead) ?_ ?_
  · have hfaithful := h.toFaithful.written_sequel hhead deleted value lease
    rw [upcoming_sequel, hname]
    exact hfaithful
  · -- the head is the last state of the chronicle, so what continues it succeeds that state
    rw [h.head?_eq, view, Option.filter_eq_some_iff] at hhead
    obtain ⟨hlast, hlive⟩ := hhead
    rw [Entry.Follows, upcoming_sequel, hname, hlast]
    exact ⟨(Bool.not_eq_true' _ ▸ hlive : p.deleted = false).symm, fun _ => rfl, fun _ => rfl,
      fun _ => rfl⟩

/-- A state that begins a life where there is no head. -/
theorem written_birth (h : log.Recalls past) (hfree : log.head? name = none) {value : Octets}
    {lease : Int} (hfaithful : (log.written (log.birth name value lease)).Faithful
      (past.map Entry.toWrite ++ [(log.upcoming (log.birth name value lease)).toWrite])) :
    (log.written (log.birth name value lease)).Recalls
    (past ++ [log.upcoming (log.birth name value lease)]) := by
  refine h.written (continues_birth hfree) hfaithful ?_
  rw [h.head?_eq, view, Option.filter_eq_none_iff] at hfree
  rw [Entry.Follows, upcoming_birth]
  rcases hlast : (statesOf past name).getLast? with _ | p
  · rfl
  · have hdeleted : p.deleted = true := by simpa using hfree p hlast
    exact ⟨hdeleted.symm, fun hcreated => (by cases hcreated), fun hcreated => (by cases hcreated),
      fun hcreated => (by cases hcreated)⟩

/-- A compaction leaves the chronicle as it is. -/
theorem compact (h : log.Recalls past) {revision : Int} (habove : log.floor < revision)
    (hle : revision ≤ log.current) : (log.compact revision).2.Recalls past where
  toFaithful := h.toFaithful.compact habove hle
  chronicle := h.chronicle
  abreast := (h.current_compact habove hle).trans h.abreast
  recorded name e he := by
    obtain ⟨gone, happend, -⟩ := h.chain_compact revision name
    exact h.recorded name e (happend ▸ List.mem_append_right _ he)
  unfilled e he hgap hfloor := by
    rw [h.floor_compact habove] at hfloor
    exact h.unfilled e (h.mem_entries_compact.1 he).1 hgap (by omega)

/-- A placeholder leaves the chronicle as it is. Above the floor its id was never given to a state:
the row of that state would still be there. -/
theorem filled (h : log.Recalls past) {id : Int} (positive : 0 < id)
    {fresh : ∀ s ∈ log.rows, s.id ≠ ((Draft.placeholder id).toRow id).id}
    (hfree : ∀ s ∈ log.rows, ((Draft.placeholder id).toRow id).sameLink s = false) :
    (log.put ((Draft.placeholder id).toRow id) fresh).Recalls past where
  toFaithful := h.toFaithful.filled positive hfree
  chronicle := h.chronicle
  abreast := h.abreast_put (h.put_placeholder positive hfree) h.abreast
  recorded name e he := h.recorded name e (chain_put_placeholder name ▸ he)
  unfilled := by
    refine forall_entries_put (fun _ hfloor p hp hrev => ?_) h.unfilled
    have hid : p.toWrite.revision = id := hrev
    -- a state that was written has left its row, or its revision is not above the floor
    rcases h.left p.toWrite (List.mem_map_of_mem hp) with ⟨e, he, hback⟩ | ⟨hbelow, -, -⟩
    · obtain ⟨r, hr, rfl⟩ := mem_entries.1 (mem_chain.1 he).1
      exact fresh r hr (hback.trans hid)
    · have habove : log.floor < id := hfloor
      omega

/-- **A step goes on with the chronicle**, by the state that it writes, if any. -/
theorem step (h : log.Recalls past) {op : Op} {n : Int} (hstep : op.Step log n log') :
    ∃ new, log'.Recalls (past ++ new) ∧ ∀ p ∈ new, log.current < p.revision := by
  have hnew : ∀ d : Draft, ∀ p ∈ [log.upcoming d], log.current < p.revision := by
    intro d p hp
    rw [List.mem_singleton.1 hp, revision_upcoming, h.abreast, h.reached_eq]
    omega
  have hfaithful := h.toFaithful.step hstep
  cases hstep with
  | @create name value lease hfree =>
    refine ⟨_, h.written_birth hfree ?_, hnew _⟩
    rw [upcoming_birth]
    exact hfaithful
  | update hhead => exact ⟨_, h.written_sequel hhead, hnew _⟩
  | delete hhead => exact ⟨_, h.written_sequel hhead, hnew _⟩
  | compacted _ _ => exact ⟨[], by rwa [List.append_nil], fun p hp => by cases hp⟩
  | compact habove hle =>
    exact ⟨[], by rw [List.append_nil]; exact h.compact habove hle, fun p hp => by cases hp⟩
  | @fill _ positive _ hfree =>
    exact ⟨[], by rw [List.append_nil]; exact h.filled positive hfree, fun p hp => by cases hp⟩

end Recalls

/-! ## Runs -/

/-- The states of a log in a run, the first one and those after each operation. -/
def course (log : Log) : List Op → List Log
  | [] => [log]
  | op :: ops => log :: (op.perform log).2.course ops

theorem getLast?_course (log : Log) (ops : List Op) :
    (log.course ops).getLast? = some (log.play ops) := by
  induction ops generalizing log with
  | nil => rfl
  | cons op ops ih =>
    rw [course, play_cons, ← ih]
    rcases hrest : (op.perform log).2.course ops with _ | ⟨next, rest⟩
    · rw [← List.getLast?_eq_none_iff, ih] at hrest
      cases hrest
    · rw [List.getLast?_cons_cons]

theorem course_concat (log : Log) (ops : List Op) (op : Op) :
    log.course (ops ++ [op]) = log.course ops ++ [(op.perform (log.play ops)).2] := by
  induction ops generalizing log with
  | nil => rfl
  | cons first ops ih => rw [List.cons_append, course, course, ih, play_cons, List.cons_append]

/-- A log recalls a beginning of a chronicle, and all that comes later is above its current
revision. -/
def Recollects (log : Log) (past : List Entry) : Prop :=
  ∃ early later, past = early ++ later ∧ log.Recalls early ∧ ∀ p ∈ later, log.current < p.revision

namespace Recollects

variable {e p : Entry}

theorem recorded (h : log.Recollects past) (he : e ∈ log.chain name) : e ∈ past := by
  obtain ⟨early, later, rfl, hrecalls, -⟩ := h
  exact List.mem_append_left _ (hrecalls.recorded name e he)

/-- Above the floor no placeholder stands where a state was or will be written. -/
theorem unfilled (h : log.Recollects past) (he : e ∈ log.entries) (hgap : e.isGap = true)
    (hfloor : log.floor < e.revision) (hp : p ∈ past) : p.revision ≠ e.revision := by
  obtain ⟨early, later, rfl, hrecalls, hlater⟩ := h
  rcases List.mem_append.1 hp with hp | hp
  · exact hrecalls.unfilled e he hgap hfloor p hp
  · have habove := hlater p hp
    have hknown := revision_le_current he
    omega

/-- **A log tells what the chronicle tells**, at every revision that it can be read at. -/
theorem liveAt?_eq (h : log.Recollects past) {revision : Int} (hfloor : log.floor ≤ revision)
    (hle : revision ≤ log.current) (name : String) :
    log.liveAt? name revision = view (upTo past revision) name := by
  obtain ⟨early, later, rfl, hrecalls, hlater⟩ := h
  have hnone : upTo later revision = [] :=
    upTo_eq_nil fun p hp => Int.lt_of_le_of_lt hle (hlater p hp)
  rw [hrecalls.liveAt?_eq hfloor, upTo, upTo, List.filter_append, ← upTo, ← upTo, hnone,
    List.append_nil]

end Recollects

/-- **All states of a run recollect one chronicle**, and none of them is ahead of the last one. -/
theorem Recalls.exists_recollects (h : log.Recalls past) (ops : List Op) : ∃ later,
    (∀ p ∈ later, log.current < p.revision) ∧ (log.play ops).Recalls (past ++ later) ∧
      ∀ s ∈ log.course ops, s.Recollects (past ++ later) ∧ s.current ≤ (log.play ops).current := by
  induction ops generalizing log past with
  | nil =>
    refine ⟨[], fun p hp => (by cases hp), by rw [List.append_nil]; exact h, ?_⟩
    intro s hs
    rw [List.mem_singleton.1 hs]
    exact ⟨⟨past, [], rfl, h, fun p hp => (by cases hp)⟩, Int.le_refl _⟩
  | cons op ops ih =>
    -- the operation writes `new`, and what the rest of the run writes is above it
    have hnext : ∃ new, (op.perform log).2.Recalls (past ++ new) ∧
        (∀ p ∈ new, log.current < p.revision) ∧ log.current ≤ (op.perform log).2.current := by
      rcases h.perform_cases op with ⟨n, log', hperform, hstep⟩ | ⟨e, hperform⟩ <;> rw [hperform]
      · obtain ⟨new, hrecalls, hnew⟩ := h.step hstep
        refine ⟨new, hrecalls, hnew, ?_⟩
        rw [h.abreast, hrecalls.abreast]
        exact hstep.sequence_le
      · exact ⟨[], by rw [List.append_nil]; exact h, fun p hp => (by cases hp), Int.le_refl _⟩
    obtain ⟨new, hrecalls, hnew, hle⟩ := hnext
    obtain ⟨later, hlater, hplay, hcourse⟩ := ih hrecalls
    have hall : ∀ p ∈ new ++ later, log.current < p.revision := by
      intro p hp
      rcases List.mem_append.1 hp with hp | hp
      · exact hnew p hp
      · exact Int.lt_of_le_of_lt hle (hlater p hp)
    rw [List.append_assoc] at hplay hcourse
    refine ⟨new ++ later, hall, hplay, ?_⟩
    intro s hs
    rcases List.mem_cons.1 hs with rfl | hs
    · refine ⟨⟨past, new ++ later, rfl, h, hall⟩, Int.le_trans hle ?_⟩
      have hfirst : (op.perform s).2 ∈ (op.perform s).2.course ops := by
        cases ops <;> exact List.mem_cons_self
      exact (hcourse _ hfirst).2
    · exact hcourse s hs

end Log

end RevisionLog
