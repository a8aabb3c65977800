import RevisionLog.Proofs.Replay

/-!
# Reads and the history of writes

What a read answers is told by the writes that were taken, as if no row had ever been removed.
Compaction only makes reads of early revisions fail.

* `Write`, `Log.history` — the writes of a run that were taken, with their revisions.
* `Write.state?`, `Write.readAt` — the state of a key after writes to it, and what a read at a
  revision has to answer.
* `Log.Faithful` — how the rows that are left and the history hang together; every step keeps it so.
* `Log.get_play` — every read after every run.
-/

namespace RevisionLog

/-! ## Histories -/

/-- A write that was taken. -/
structure Write where
  revision : Int
  name : String
  /-- the write begins a life of the key -/
  created : Bool
  /-- the write ends a life of the key -/
  deleted : Bool
  lease : Int
  value : Octets
  deriving DecidableEq, Repr

/-- The write that an operation was, if it was taken under a revision. -/
def Op.write? (revision : Int) : Op → Option Write
  | create name value lease =>
    some { revision, name, created := true, deleted := false, lease, value }
  | update name value _ lease =>
    some { revision, name, created := false, deleted := false, lease, value }
  | delete name _ =>
    some { revision, name, created := false, deleted := true, lease := 0, value := [] }
  | compact _ => none
  | fill _ _ => none

/-- The write that came of an operation, if it was one and was taken. -/
def Op.taken? : Op × Except Error Int → Option Write
  | (op, .ok revision) => op.write? revision
  | (_, .error _) => none

/-- The writes of a run that were taken, in their order. -/
def Log.history (log : Log) (ops : List Op) : List Write := (log.answers ops).filterMap Op.taken?

/-- An entry without the link to the life before it: the end of that life may be gone. -/
def Entry.unlinked (e : Entry) : Entry :=
  { e with prevRevision := if e.created then 0 else e.prevRevision }

namespace Write

/-- The writes to a key up to a revision. -/
def upTo (ws : List Write) (name : String) (revision : Int) : List Write :=
  ws.filter fun w => w.name = name && w.revision ≤ revision

/-- The state of a key after writes to it. A life begins with its last creation, and a write that
begins no life replaces what the write before it left. -/
def state? (ws : List Write) : Option Entry :=
  ws.getLast?.map fun w =>
    { revision := w.revision
      name := w.name
      created := w.created
      deleted := w.deleted
      createRevision := ((ws.filter (·.created)).getLast?.map Write.revision).getD 0
      prevRevision := if w.created then 0 else (ws.dropLast.getLast?.map Write.revision).getD 0
      lease := w.lease
      value := w.value
      oldValue := if w.created then [] else (ws.dropLast.getLast?.map Write.value).getD [] }

/-- What a read of a key at a revision has to answer. -/
def readAt (ws : List Write) (name : String) (revision : Int) : Option Entry :=
  (state? (upTo ws name revision)).filter fun e => !e.deleted

variable {ws : List Write} {w : Write} {name : String} {revision : Int}

theorem mem_upTo : w ∈ upTo ws name revision ↔ w ∈ ws ∧ w.name = name ∧ w.revision ≤ revision := by
  simp [upTo]

/-- The state is the one that the last write left. -/
theorem exists_of_state? {e : Entry} (he : state? ws = some e) :
    ∃ w, ws.getLast? = some w ∧ e.revision = w.revision ∧ e.deleted = w.deleted ∧
      e.value = w.value := by
  obtain ⟨w, hw, rfl⟩ := Option.map_eq_some_iff.1 he
  exact ⟨w, hw, rfl, rfl, rfl⟩

/-- The state after a creation. -/
theorem state?_concat_created (hcreated : w.created = true) :
    state? (ws ++ [w]) =
      some { revision := w.revision, name := w.name, created := true, deleted := w.deleted
             createRevision := w.revision, prevRevision := 0, lease := w.lease
             value := w.value, oldValue := [] } := by
  simp [state?, hcreated]

/-- The state after a write that goes on with a life or ends it. -/
theorem state?_concat {e : Entry} (hcreated : w.created = false) (he : state? ws = some e) :
    state? (ws ++ [w]) =
      some { revision := w.revision, name := w.name, created := false, deleted := w.deleted
             createRevision := e.createRevision, prevRevision := e.revision, lease := w.lease
             value := w.value, oldValue := e.value } := by
  obtain ⟨v, hv, rfl⟩ := Option.map_eq_some_iff.1 he
  simp [state?, hcreated, hv]

end Write

/-! ## What is left of a history -/

namespace Log

/-- The rows that are left of a history. Every state in a chain is the one that the history tells,
and a write whose row is gone comes before all that is left of its name and is at or below the
floor; it was overwritten there, or it was a deletion. -/
structure Faithful (log : Log) (ws : List Write) : Prop extends Intact log where
  ordered : ws.Pairwise (·.revision < ·.revision)
  known : ∀ w ∈ ws, w.revision ≤ log.sequence.getD 0
  told : ∀ name, ∀ e ∈ log.chain name, Write.state? (Write.upTo ws name e.revision) =
    some e.unlinked
  left : ∀ w ∈ ws, (∃ e ∈ log.chain w.name, e.revision = w.revision) ∨
    (w.revision ≤ log.floor ∧ (∀ e ∈ log.chain w.name, w.revision < e.revision) ∧
      (w.deleted = true ∨ ∃ v ∈ ws, v.name = w.name ∧ w.revision < v.revision ∧
        v.revision ≤ log.floor))

variable {log log' : Log} {ws : List Write} {name : String}

namespace Faithful

/-- A state that is left was made by the last write up to it. -/
theorem exists_write (h : log.Faithful ws) {e : Entry} (he : e ∈ log.chain name) :
    ∃ w, (Write.upTo ws name e.revision).getLast? = some w ∧ w ∈ ws ∧ w.name = name ∧
      w.revision = e.revision ∧ w.deleted = e.deleted := by
  obtain ⟨w, hlast, hrev, hdeleted, -⟩ := Write.exists_of_state? (h.told name e he)
  obtain ⟨hw, hname, -⟩ := Write.mem_upTo.1 (List.mem_of_getLast? hlast)
  exact ⟨w, hlast, hw, hname, hrev.symm, hdeleted.symm⟩

/-- A write of the history is told by its revision. -/
theorem write_eq (h : log.Faithful ws) {v w : Write} (hv : v ∈ ws) (hw : w ∈ ws)
    (hrev : v.revision = w.revision) : v = w := eq_of_key_eq h.ordered hv hw hrev

/-- No write lies above the current revision, also where its row is gone. -/
theorem le_current (h : log.Faithful ws) {w : Write} (hw : w ∈ ws) : w.revision ≤ log.current := by
  rcases h.left w hw with ⟨e, he, hrev⟩ | ⟨hfloor, -, -⟩
  · rw [← hrev]
    exact revision_le_current (mem_chain.1 he).1
  · exact Int.le_trans hfloor log.floor_le_current

/-! ### Reads -/

/-- The last state that is left up to a revision is the one that the history tells. -/
theorem state?_of_last (h : log.Faithful ws) {revision : Int} {e : Entry}
    (hlast : ((log.chain name).filter (·.revision ≤ revision)).getLast? = some e) :
    Write.state? (Write.upTo ws name revision) = some e.unlinked := by
  obtain ⟨hmem, hle⟩ := List.mem_filter.1 (List.mem_of_getLast? hlast)
  rw [decide_eq_true_iff] at hle
  rw [← h.told name e hmem]
  congr 1
  -- no write of the name lies between the state and the revision
  refine List.filter_congr ?_
  intro w hw
  rw [Bool.eq_iff_iff, Bool.and_eq_true, Bool.and_eq_true, decide_eq_true_iff, decide_eq_true_iff,
    decide_eq_true_iff]
  refine and_congr_right fun hname => ⟨fun hwle => ?_, fun hwe => Int.le_trans hwe hle⟩
  rcases h.left w hw with ⟨f, hf, hrev⟩ | ⟨-, hbefore, -⟩
  · rw [hname] at hf
    have hsorted := (log.pairwise_chain name).filter fun f => decide (f.revision ≤ revision)
    have hfe := le_last hsorted hlast (List.mem_filter.2 ⟨hf, decide_eq_true (by omega)⟩)
    omega
  · exact Int.le_of_lt (hbefore e (hname ▸ hmem))

/-- **A read is told by the history.** It makes no difference which rows are gone, as long as the
revision is not below the floor. -/
theorem read_eq (h : log.Faithful ws) {revision : Int} (hfloor : log.floor ≤ revision)
    (name : String) :
    (((log.chain name).filter (·.revision ≤ revision)).getLast?.filter fun e => !e.deleted).map
      Entry.unlinked = Write.readAt ws name revision := by
  rcases hlast : ((log.chain name).filter (·.revision ≤ revision)).getLast? with _ | e <;>
    rw [hlast]
  · rcases hstate : Write.state? (Write.upTo ws name revision) with _ | s
    · rw [Write.readAt, hstate]
      rfl
    · -- the last write up to the revision is gone, and nothing came after it: it was a deletion
      obtain ⟨w, hw, -, hdeleted, -⟩ := Write.exists_of_state? hstate
      obtain ⟨hmem, rfl, hle⟩ := Write.mem_upTo.1 (List.mem_of_getLast? hw)
      have hnone := List.getLast?_eq_none_iff.1 hlast
      have hgone : s.deleted = true := by
        rcases h.left w hmem with ⟨e, he, hrev⟩ | ⟨-, -, hdel | ⟨v, hv, hname, hlt, hvle⟩⟩
        · have he' : e ∈ (log.chain w.name).filter (·.revision ≤ revision) :=
            List.mem_filter.2 ⟨he, decide_eq_true (by omega)⟩
          rw [hnone] at he'
          cases he'
        · rw [hdeleted, hdel]
        · have hsorted : (Write.upTo ws w.name revision).Pairwise (·.revision < ·.revision) :=
            h.ordered.filter _
          have hback := le_last hsorted hw (Write.mem_upTo.2 ⟨hv, hname, by omega⟩)
          omega
      rw [Write.readAt, hstate, Option.filter_some, if_neg (by simp [hgone])]
      rfl
  · rw [Write.readAt, h.state?_of_last hlast, Option.filter_some, Option.filter_some]
    have hdeleted : e.unlinked.deleted = e.deleted := rfl
    rw [hdeleted]
    split
    · rfl
    · rfl

/-! ### Steps -/

/-- All writes to a name make the state that is left last. -/
theorem state?_of_getLast? (h : log.Faithful ws) {e : Entry}
    (hlast : (log.chain name).getLast? = some e) :
    Write.state? (Write.upTo ws name (log.sequence.getD 0)) = some e.unlinked := by
  refine h.state?_of_last ?_
  rw [List.filter_eq_self.2, hlast]
  intro f hf
  exact decide_eq_true (h.remembered f (mem_chain.1 hf).1)

/-- A write that is known lies below a new one. -/
theorem upTo_concat_of_le {w : Write} {revision : Int} (hlt : revision < w.revision) :
    Write.upTo (ws ++ [w]) name revision = Write.upTo ws name revision := by
  rw [Write.upTo, List.filter_append, List.filter_cons_of_neg (by simp; omega), List.filter_nil,
    List.append_nil, Write.upTo]

theorem upTo_concat_self (h : log.Faithful ws) {w : Write}
    (hlt : log.sequence.getD 0 < w.revision) :
    Write.upTo (ws ++ [w]) w.name w.revision =
        Write.upTo ws w.name (log.sequence.getD 0) ++ [w] := by
  rw [Write.upTo, List.filter_append, List.filter_cons_of_pos (by simp), List.filter_nil,
    Write.upTo]
  congr 1
  refine List.filter_congr ?_
  intro v hv
  have hknown := h.known v hv
  rw [decide_eq_true (by omega : v.revision ≤ w.revision), decide_eq_true hknown]

/-- What is left of a history before a row that continues a chain is left after it. The row stands
above all that came before it. -/
theorem left_written (h : log.Faithful ws) {d : Draft} (hd : log.Continues d) {w v : Write}
    (hv : v ∈ ws) :
    (∃ e ∈ (log.written d).chain v.name, e.revision = v.revision) ∨
      (v.revision ≤ log.floor ∧ (∀ e ∈ (log.written d).chain v.name, v.revision < e.revision) ∧
        (v.deleted = true ∨
          ∃ u ∈ ws ++ [w], u.name = v.name ∧ v.revision < u.revision ∧
            u.revision ≤ log.floor)) := by
  have hchain := hd.chain_written v.name
  rcases h.left v hv with ⟨e, he, hrev⟩ | ⟨hfloor, hbefore, hwhy⟩
  · refine Or.inl ⟨e, ?_, hrev⟩
    rw [hchain]
    split
    · exact List.mem_append_left _ he
    · exact he
  · refine Or.inr ⟨hfloor, ?_, ?_⟩
    · intro e he
      rw [hchain] at he
      split at he
      · rcases List.mem_append.1 he with he | he
        · exact hbefore e he
        · have hknown := h.known v hv
          have hreached := h.reached_eq
          rw [List.mem_singleton.1 he, revision_upcoming]
          omega
      · exact hbefore e he
    · rcases hwhy with hdeleted | ⟨u, hu, hrest⟩
      · exact Or.inl hdeleted
      · exact Or.inr ⟨u, List.mem_append_left _ hu, hrest⟩

/-- **A row that continues a chain goes with its write.** -/
theorem written (h : log.Faithful ws) {d : Draft} (hd : log.Continues d) {w : Write}
    (hrev : w.revision = log.reached + 1) (hname : (log.upcoming d).name = w.name)
    (hstate : Write.state? (Write.upTo ws w.name (log.sequence.getD 0) ++ [w]) =
      some (log.upcoming d).unlinked) :
    (log.written d).Faithful (ws ++ [w]) := by
  have hreached := h.reached_eq
  have hnew : log.sequence.getD 0 < w.revision := by omega
  have hchain := hd.chain_written
  rw [hname] at hchain
  refine
    { toIntact := ⟨h.toSound.written hd, h.indexed⟩
      ordered := ?ordered
      known := ?known
      told := ?told
      left := ?left }
  case ordered =>
    refine List.pairwise_append.2 ⟨h.ordered, List.pairwise_singleton _ _, ?_⟩
    intro v hv w' hw'
    obtain rfl := List.mem_singleton.1 hw'
    exact Int.lt_of_le_of_lt (h.known v hv) hnew
  case known =>
    intro v hv
    have hsequence : (log.written d).sequence.getD 0 =
      max (log.sequence.getD 0) (log.reached + 1) := rfl
    rw [hsequence]
    rcases List.mem_append.1 hv with hv | hv
    · have hknown := h.known v hv
      omega
    · rw [List.mem_singleton.1 hv]
      omega
  case told =>
    intro name' e he
    -- the new write is above every state that was there
    have hold : ∀ e ∈ log.chain name', Write.state? (Write.upTo (ws ++ [w]) name' e.revision) =
        some e.unlinked := by
      intro e he
      have hle := h.remembered e (mem_chain.1 he).1
      rw [upTo_concat_of_le (by omega)]
      exact h.told name' e he
    rw [hchain] at he
    split at he
    · next hown =>
      subst hown
      rcases List.mem_append.1 he with he | he
      · exact hold e he
      · obtain rfl := List.mem_singleton.1 he
        rw [revision_upcoming, ← hrev, h.upTo_concat_self hnew, hstate]
    · exact hold e he
  case left =>
    intro v hv
    rcases List.mem_append.1 hv with hv | hv
    · exact h.left_written hd hv
    · obtain rfl := List.mem_singleton.1 hv
      refine Or.inl ⟨log.upcoming d, ?_, by rw [revision_upcoming, hrev]⟩
      rw [hchain, if_pos rfl]
      simp

/-- A write whose row compaction forgets was a deletion, or another write followed it up
to there. -/
theorem overwritten_of_forgets (h : log.Faithful ws) {revision : Int} {w : Write} (hw : w ∈ ws)
    {e : Entry} (he : e ∈ log.chain w.name) (hrev : e.revision = w.revision)
    (hforgets : log.forgets revision e = true) :
    w.deleted = true ∨ ∃ v ∈ ws, v.name = w.name ∧ w.revision < v.revision ∧
        v.revision ≤ revision := by
  obtain ⟨hmem, hname, hgap⟩ := mem_chain.1 he
  rcases forgets_iff.1 hforgets with ⟨f, hf, hle, -, hlink⟩ | ⟨-, hdeleted⟩
  · obtain ⟨hfname, hfgap⟩ := h.name_eq_of_link hmem hgap hf hlink.symm
    obtain ⟨v, -, hv, hvname, hvrev, -⟩ :=
      h.exists_write (mem_chain.2 ⟨hf, hfname.trans hname, hfgap⟩)
    have hearlier := h.earlier f hf hfgap
    exact Or.inr ⟨v, hv, hvname, by omega, by omega⟩
  · obtain ⟨v, -, hv, -, hvrev, hvdeleted⟩ := h.exists_write he
    obtain rfl := h.write_eq hv hw (by omega)
    exact Or.inl (hvdeleted.trans hdeleted)

/-- **Compaction loses no answer.** A row that goes was overwritten at or below the new floor, or
was a deletion. -/
theorem compact (h : log.Faithful ws) {revision : Int} (habove : log.floor < revision)
    (hle : revision ≤ log.current) : (log.compact revision).2.Faithful ws := by
  have hfloor := h.floor_compact habove
  refine
    { toIntact := ⟨h.toSound.compact habove hle, h.indexed⟩
      ordered := h.ordered
      known := h.known
      told := ?told
      left := ?left }
  case told =>
    intro name e he
    obtain ⟨gone, happend, -⟩ := h.chain_compact revision name
    exact h.told name e (happend ▸ List.mem_append_right _ he)
  case left =>
    intro w hw
    obtain ⟨gone, happend, hgone⟩ := h.chain_compact revision w.name
    have hsorted := log.pairwise_chain w.name
    rw [← happend] at hsorted
    rw [hfloor]
    rcases h.left w hw with ⟨e, he, hrev⟩ | ⟨hwfloor, hbefore, hwhy⟩
    · rcases List.mem_append.1 (happend ▸ he) with hegone | hekept
      · have hforgets := hgone e hegone
        refine Or.inr ⟨?_, ?_, h.overwritten_of_forgets hw he hrev hforgets⟩
        · have hback := h.le_of_forgets hforgets
          omega
        · intro f hf
          rw [← hrev]
          exact (List.pairwise_append.1 hsorted).2.2 e hegone f hf
      · exact Or.inl ⟨e, hekept, hrev⟩
    · refine Or.inr ⟨by omega, fun e he => hbefore e (happend ▸ List.mem_append_right _ he), ?_⟩
      rcases hwhy with hdeleted | ⟨v, hv, hvname, hlt, hvle⟩
      · exact Or.inl hdeleted
      · exact Or.inr ⟨v, hv, hvname, hlt, by omega⟩

/-- A placeholder makes no difference to a history. -/
theorem filled (h : log.Faithful ws) {id : Int} (positive : 0 < id)
    {fresh : ∀ s ∈ log.rows, s.id ≠ ((Draft.placeholder id).toRow id).id}
    (hfree : ∀ s ∈ log.rows, ((Draft.placeholder id).toRow id).sameLink s = false) :
    (log.put ((Draft.placeholder id).toRow id) fresh).Faithful ws where
  toIntact := ⟨h.put_placeholder positive hfree, h.indexed⟩
  ordered := h.ordered
  known w hw := Int.le_trans (h.known w hw) (Int.le_max_left _ _)
  told name e he := h.told name e (chain_put_placeholder name ▸ he)
  left w hw := by
    rw [chain_put_placeholder, floor_put]
    exact h.left w hw

/-- A sequel of the head goes with its write. -/
theorem written_sequel (h : log.Faithful ws) {p : Entry} (hhead : log.head? name = some p)
    (deleted : Bool) (value : Octets) (lease : Int) :
    (log.written (sequel p deleted value lease)).Faithful
      (ws ++ [{ revision := log.reached + 1, name, created := false, deleted, lease, value }]) := by
  obtain ⟨hlast, -⟩ := head?_eq_some.1 hhead
  obtain ⟨-, hname, -⟩ := mem_chain.1 (List.mem_of_getLast? hlast)
  refine h.written (continues_sequel hhead) rfl ?_ ?_
  · rw [upcoming_sequel]
    exact hname
  · rw [Write.state?_concat rfl (h.state?_of_getLast? hlast), upcoming_sequel, Entry.unlinked,
      hname]
    rfl

/-- **A step goes with its write.** -/
theorem step (h : log.Faithful ws) {op : Op} {n : Int} (hstep : op.Step log n log') :
    log'.Faithful (ws ++ (op.write? n).toList) := by
  cases hstep with
  | @create name value lease hfree =>
    refine h.written (continues_birth hfree) rfl ?_ ?_
    · rw [upcoming_birth]
    · rw [Write.state?_concat_created rfl, upcoming_birth]
      rfl
  | update hhead => exact h.written_sequel hhead false _ _
  | delete hhead => exact h.written_sequel hhead true [] 0
  | compacted _ _ =>
    rw [Op.write?, Option.toList_none, List.append_nil]
    exact h
  | compact habove hle =>
    rw [Op.write?, Option.toList_none, List.append_nil]
    exact h.compact habove hle
  | @fill _ positive _ hfree =>
    rw [Op.write?, Option.toList_none, List.append_nil]
    exact h.filled positive hfree

/-- **A run goes with its history.** -/
theorem play (h : log.Faithful ws) (ops : List Op) :
    (log.play ops).Faithful (ws ++ log.history ops) := by
  induction ops generalizing log ws with
  | nil =>
    rw [history, answers, List.filterMap_nil, List.append_nil]
    exact h
  | cons op ops ih =>
    rw [history, answers, List.filterMap_cons]
    rcases h.perform_cases op with ⟨n, log', hperform, hstep⟩ | ⟨e, hperform⟩
    · have hrest := ih (h.step hstep)
      rw [play_cons, hperform]
      rcases hwrite : op.write? n with _ | w
      · simpa [Op.taken?, hwrite, history] using hrest
      · simpa [Op.taken?, hwrite, history] using hrest
    · rw [play_cons, hperform]
      simpa [Op.taken?, history] using ih h

end Faithful

/-- An empty log and an empty history go together. -/
theorem faithful_empty : Faithful { indexing := .linkFirst } [] where
  toIntact := ⟨sound_empty _, rfl⟩
  ordered := .nil
  known w hw := by cases hw
  told name e he := by cases he
  left w hw := by cases hw

/-- **Reads refine the history.** After any run from an empty log no write that was taken lies above
the current revision, and a read at a revision that can be read answers what the writes make of the
key up to there; a revision beyond the current one and one below the floor are refused. -/
theorem get_play (ops : List Op) (name : String) (revision : Int) :
    ∃ current watermark, Store.currentRevision (Log.play { indexing := .linkFirst } ops) =
      .ok current ∧ Store.compactedTo (Log.play { indexing := .linkFirst } ops) = .ok watermark ∧
        (∀ w ∈ Log.history { indexing := .linkFirst } ops, w.revision ≤ current) ∧
        (Store.get (Log.play { indexing := .linkFirst } ops) name revision).map
          (·.map Entry.unlinked) = let writes := Log.history { indexing := .linkFirst } ops
          if revision = 0 then .ok (Write.readAt writes name current)
          else if current < revision then .error (.futureRevision revision current)
          else if revision < watermark then .error (.compacted revision watermark)
          else .ok (Write.readAt writes name revision) := by
  have h := faithful_empty.play ops
  rw [List.nil_append] at h
  refine ⟨_, _, h.store_currentRevision, h.store_compactedTo, fun w hw => h.le_current hw, ?_⟩
  have hresolve := h.resolve_eq revision
  have hfloor := floor_le_current (Log.play { indexing := .linkFirst } ops)
  split
  · next hzero =>
    rw [if_pos hzero] at hresolve
    rw [h.get_eq name hresolve, Except.map, h.read_eq hfloor]
  · next hzero =>
    rw [if_neg hzero] at hresolve
    split
    · next hfuture =>
      rw [if_pos hfuture] at hresolve
      rw [Store.get, hresolve]
      rfl
    · next hpast =>
      rw [if_neg hpast] at hresolve
      split
      · next hbelow =>
        rw [if_pos hbelow] at hresolve
        rw [Store.get, hresolve]
        rfl
      · next habove =>
        rw [if_neg habove] at hresolve
        rw [h.get_eq name hresolve, Except.map, h.read_eq (Int.not_lt.1 habove)]

end Log

end RevisionLog
