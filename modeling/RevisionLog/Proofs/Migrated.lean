import RevisionLog.Proofs.Continuity

/-!
# What a migration makes of an older table

The rows of an older table are told again, in the order of names and ids, as the writes of somebody
who did the same to the store: a row of a key that is not live creates it, one of a live key updates
it, and a deletion of a live key ends its life. Nothing else gets into the log.

* `Legacy.Regular` — the tables that can be told again.
* `Legacy.retell`, `Legacy.states` — the states that the rows of a table make, one after the other.
* `Migration.Replaying.copy_eq` — the replay of a migration writes just these.
* `Legacy.Regular.valueOf?_states` — what is live in the end is what the last rows of the keys say.
* `Migration.migrate_states` — the whole of a migration of a fresh log.
-/

namespace RevisionLog

/-! ## Rows -/

namespace LegacyRow

/-- The state that a row tells of. A column without a value counts as zero. -/
def toEntry (r : LegacyRow) : LegacyEntry where
  name := r.name.toText
  value := r.value.payload
  deleted := r.deleted.toInt ≠ 0
  ttl := r.ttl.toInt

/-- The columns of a row hold what they should: a text in the name, and integers or nothing in the
mark of deletion and in the time to live. The payload may be anything. -/
structure IsRegular (r : LegacyRow) : Prop where
  name : ∃ s, r.name = .text s
  deleted : r.deleted = .null ∨ ∃ n, r.deleted = .integer n
  ttl : r.ttl = .null ∨ ∃ n, r.ttl = .integer n

/-- A regular row is read as the state it tells of. -/
theorem IsRegular.decode_eq {r : LegacyRow} (h : r.IsRegular) :
    Legacy.decode r = .ok r.toEntry := by
  obtain ⟨s, hname⟩ := h.name
  have hmark : ∀ (index : Nat) (column : String) (c : Cell), (c = .null ∨ ∃ n, c = .integer n) →
      Row.readIntOrZero index column c = .ok c.toInt := by
    rintro index column c (rfl | ⟨n, rfl⟩) <;> rfl
  rw [Legacy.decode, hname, hmark _ _ _ h.deleted, hmark _ _ _ h.ttl, toEntry, hname]
  rfl

end LegacyRow

namespace Legacy

/-- A table that can be told again: every row is regular, no two have one id, no column is missing,
and names are compared byte by byte. -/
structure Regular (legacy : Legacy) : Prop where
  rows : ∀ r ∈ legacy.rows, r.IsRegular
  ids : (legacy.rows.map LegacyRow.id).Nodup
  complete : legacy.lacking = []
  bytes : legacy.collation = .bytes

/-- A table that can be read: the same, however names are compared. -/
structure Readable (legacy : Legacy) : Prop where
  rows : ∀ r ∈ legacy.rows, r.IsRegular
  ids : (legacy.rows.map LegacyRow.id).Nodup
  complete : legacy.lacking = []

theorem Regular.readable {legacy : Legacy} (h : legacy.Regular) : legacy.Readable :=
  ⟨h.rows, h.ids, h.complete⟩

/-- Whether a row comes before another one: its name is smaller, or its id of the same name. -/
def Before (r s : LegacyRow) : Prop :=
  Cell.orderText r.name.toText s.name.toText = .lt ∨ r.name.toText = s.name.toText ∧ r.id < s.id

instance : DecidableRel Before := fun _ _ => inferInstanceAs (Decidable (_ ∨ _))

theorem Before.not_before {r s : LegacyRow} (h : Before r s) : ¬Before s r := by
  rintro (hname | ⟨hname, hid⟩)
  · rcases h with hname' | ⟨hname', -⟩
    · have hswap : Cell.orderText s.name.toText r.name.toText =
          (Cell.orderText r.name.toText s.name.toText).swap := by
        rw [Cell.orderText_eq_compareOn]
        exact Std.OrientedCmp.eq_swap
      rw [hswap, hname'] at hname
      cases hname
    · rw [Cell.orderText_eq_eq.2 hname'.symm] at hname
      cases hname
  · rcases h with hname' | ⟨-, hid'⟩
    · rw [Cell.orderText_eq_eq.2 hname.symm] at hname'
      cases hname'
    · omega

variable {legacy : Legacy}

theorem perm_sorted (legacy : Legacy) : legacy.sorted.Perm legacy.rows := List.mergeSort_perm _ _

/-- Rows that are in the order of keys, and have not one id, come one before the other. -/
theorem before_of_isLE {r s : LegacyRow} (hle : (orderKeys (key r) (key s)).isLE)
    (hne : r.id ≠ s.id) : Before r s := by
  have hsplit :
      orderKeys (key r) (key s) =
        (Cell.orderText r.name.toText s.name.toText).then (compare r.id s.id) := by
    rw [Cell.orderText_eq_compareOn]
    rfl
  rw [hsplit] at hle
  rcases hname : Cell.orderText r.name.toText s.name.toText with _ | _ | _ <;> rw [hname] at hle
  · exact Or.inl hname
  · refine Or.inr ⟨Cell.orderText_eq_eq.1 hname, ?_⟩
    have hid : (compare r.id s.id).isLE := hle
    rw [Int.isLE_compare] at hid
    omega
  · cases hle

/-- The rows are read in the order of names and ids. -/
theorem Regular.pairwise_before (h : legacy.Regular) : legacy.sorted.Pairwise Before := by
  have hkeys := List.pairwise_map.1 (pairwise_sorted h.bytes fun r hr => (h.rows r hr).name)
  have hids : legacy.sorted.Pairwise fun r s => r.id ≠ s.id := by
    rw [← List.pairwise_map (f := LegacyRow.id) (R := (· ≠ ·))]
    exact (legacy.perm_sorted.map LegacyRow.id).nodup_iff.2 h.ids
  exact (hkeys.and hids).imp fun ⟨hle, hne⟩ => before_of_isLE hle hne

/-- The states that are read of a table. -/
theorem Readable.read_eq (h : legacy.Readable) :
    legacy.read = .ok (legacy.sorted.map LegacyRow.toEntry) := by
  have hall : ∀ rows : List LegacyRow, (∀ r ∈ rows, r.IsRegular) →
      rows.mapM decode = .ok (rows.map LegacyRow.toEntry) := by
    intro rows hrows
    induction rows with
    | nil => rfl
    | cons r rows ih =>
      rw [List.mapM_cons, (hrows r List.mem_cons_self).decode_eq,
        ih fun s hs => hrows s (List.mem_cons_of_mem r hs)]
      rfl
  have hcomplete : LegacyColumn.all.find? (· ∈ legacy.lacking) = none := by
    rw [h.complete]
    rfl
  rw [read, hcomplete]
  exact hall _ fun r hr => h.rows r (List.mem_mergeSort.1 hr)

/-- A regular table can be read. -/
theorem Regular.read_eq (h : legacy.Regular) :
    legacy.read = .ok (legacy.sorted.map LegacyRow.toEntry) :=
  h.readable.read_eq

/-! ## Telling rows again -/

/-- The states told so far, and the one that a further row makes. -/
def retell (told : List Entry) (e : LegacyEntry) : List Entry :=
  let last := (told.filter (·.name = e.name)).getLast?
  let revision : Int := told.length + 1
  let lease := max e.ttl 0
  match last.filter (fun p => !p.deleted), e.deleted with
  -- the key is live: an update
  | some p, false =>
    told ++ [{ revision, name := e.name, created := false, deleted := false
               createRevision := p.createRevision, prevRevision := p.revision, lease
               value := e.value, oldValue := p.value }]
  -- the key is live: its end
  | some p, true =>
    told ++ [{ revision, name := e.name, created := false, deleted := true
               createRevision := p.createRevision, prevRevision := p.revision, lease
               value := [], oldValue := p.value }]
  -- the key is not live: a new life, after the end of the last one
  | none, false =>
    told ++ [{ revision, name := e.name, created := true, deleted := false,
               createRevision := revision
               prevRevision := (last.map Entry.revision).getD 0, lease, value := e.value
               oldValue := [] }]
  -- there is nothing to end
  | none, true => told

/-- The states that a table makes. -/
def states (legacy : Legacy) : List Entry := (legacy.sorted.map LegacyRow.toEntry).foldl retell []

/-- The payload of a name after states, if it is live. -/
def valueOf? (told : List Entry) (name : String) : Option Octets :=
  ((told.filter (·.name = name)).getLast?.filter fun p => !p.deleted).map Entry.value

theorem valueOf?_concat (told : List Entry) (p : Entry) (name : String) :
    valueOf? (told ++ [p]) name =
      if p.name = name then (if p.deleted then none else some p.value) else valueOf? told name := by
  rw [valueOf?, List.filter_append]
  by_cases hname : p.name = name
  · rw [List.filter_cons_of_pos (by simpa using hname), List.filter_nil, List.getLast?_concat,
      if_pos hname]
    cases hdeleted : p.deleted <;> simp [hdeleted]
  · rw [List.filter_cons_of_neg (by simpa using hname), List.filter_nil,
      List.append_nil, if_neg hname, valueOf?]

/-- A row decides what is live under its name, and nothing else. -/
theorem valueOf?_retell (told : List Entry) (e : LegacyEntry) (name : String) :
    valueOf? (retell told e) name =
      if e.name = name then (if e.deleted then none else some e.value) else valueOf? told name := by
  unfold retell
  dsimp only
  split
  · next hlive => rw [valueOf?_concat, hlive]
  · next hdeleted =>
    rw [valueOf?_concat, hdeleted]
    rfl
  · next hlive => rw [valueOf?_concat, hlive]
  · next hnone hdeleted =>
    split
    · next hname =>
      subst hname
      rw [valueOf?, hnone]
      rfl
    · rfl

/-- What is live in the end is what the last row of a name says. -/
theorem valueOf?_foldl (es : List LegacyEntry) (name : String) :
    valueOf? (es.foldl retell []) name =
      ((es.filter (·.name = name)).getLast?.filter fun e => !e.deleted).map LegacyEntry.value := by
  induction es using List.reverseRecOn with
  | nil => rfl
  | append_singleton es e ih =>
    rw [List.foldl_concat, valueOf?_retell, List.filter_append]
    by_cases hname : e.name = name
    · rw [if_pos hname, List.filter_cons_of_pos (by simpa using hname), List.filter_nil,
        List.getLast?_concat]
      cases hdeleted : e.deleted <;> simp [Option.filter, hdeleted]
    · rw [if_neg hname, List.filter_cons_of_neg (by simpa using hname), List.filter_nil,
        List.append_nil, ih]

/-- The states are numbered in the order in which they are told. -/
theorem revision_retell {told : List Entry}
    (h : told.map Entry.revision = (List.range told.length).map fun i => (i : Int) + 1)
    (e : LegacyEntry) :
    (retell told e).map Entry.revision =
        (List.range (retell told e).length).map fun i => (i : Int) + 1 := by
  unfold retell
  dsimp only
  split <;> simp [h, List.range_succ]

theorem revision_states (legacy : Legacy) :
    legacy.states.map Entry.revision = (List.range legacy.states.length).map fun i =>
      (i : Int) + 1 := by
  rw [states]
  induction legacy.sorted.map LegacyRow.toEntry using List.reverseRecOn with
  | nil => rfl
  | append_singleton es e ih =>
    rw [List.foldl_concat]
    exact revision_retell ih e

theorem length_le_retell (told : List Entry) (e : LegacyEntry) :
    told.length ≤ (retell told e).length := by
  unfold retell
  dsimp only
  split <;> simp

theorem length_le_foldl (es : List LegacyEntry) (told : List Entry) :
    told.length ≤ (es.foldl retell told).length := by
  induction es generalizing told with
  | nil => exact Nat.le_refl _
  | cons e es ih => exact Nat.le_trans (length_le_retell told e) (ih _)

end Legacy

/-! ## The replay writes just these -/

/-- The row in which the store keeps a state. The revision of its beginning is not written in a row
that begins a life: it is that of the row. -/
def Entry.stored (e : Entry) : Row :=
  (Draft.ofUser e.name e.created e.deleted (if e.created then 0 else e.createRevision)
    e.prevRevision e.lease e.value e.oldValue).toRow e.revision

namespace Log

/-- A log holds these states and no others, and nothing was ever taken away from it. -/
structure Retells (log : Log) (told : List Entry) : Prop where
  rows : log.rows = told.map Entry.stored
  entries : log.entries = told
  genuine : ∀ e ∈ told, e.isGap = false
  sequence : log.sequence = if told = [] then none else some (told.length : Int)
  watermark : log.watermark = none

namespace Retells

variable {log : Log} {told : List Entry}

theorem empty (indexing : Indexing) : Retells { indexing } [] where
  rows := rfl
  entries := rfl
  genuine e he := by cases he
  sequence := rfl
  watermark := rfl

/-- The states of a name are those told of it. -/
theorem chain_eq (h : log.Retells told) (name : String) :
    log.chain name = told.filter (·.name = name) := by
  rw [chain, h.entries]
  refine List.filter_congr fun e he => ?_
  rw [Entry.isStateOf, h.genuine e he, Bool.not_false, Bool.and_true]

theorem reached_eq (h : log.Retells told) (hsound : log.Sound) : log.reached = told.length := by
  rw [hsound.reached_eq, h.sequence]
  split
  · next hnil => rw [hnil]; rfl
  · rfl

/-- One more state. -/
theorem written (h : log.Retells told) (hsound : log.Sound) {d : Draft} (hd : log.Continues d)
    (hstored : (log.upcoming d).stored = d.toRow (log.reached + 1)) :
    (log.written d).Retells (told ++ [log.upcoming d]) where
  rows := by
    have hbelow : ∀ s ∈ log.rows, s.id < (d.toRow (log.reached + 1)).id := fun s hs =>
      Int.lt_add_one_of_le (id_le_reached hs)
    show place _ log.rows = _
    rw [place_of_forall_lt hbelow, h.rows, List.map_append, List.map_singleton, hstored]
  entries := by
    refine (entries_put_of_forall_lt fun s hs => Int.lt_add_one_of_le (id_le_reached hs)).trans ?_
    rw [h.entries]
    rfl
  genuine := by
    intro e he
    rcases List.mem_append.1 he with he | he
    · exact h.genuine e he
    · rw [List.mem_singleton.1 he]
      exact hd.gap
  sequence := by
    have hsequence :
      (log.written d).sequence = some (max (log.sequence.getD 0) (log.reached + 1)) := rfl
    rw [hsequence, ← hsound.reached_eq, h.reached_eq hsound, if_neg (by simp), List.length_append]
    congr 1
    simp only [List.length_singleton]
    omega
  watermark := h.watermark

end Retells

end Log

namespace Migration

variable {log : Log} {chain : Option Chain} {e : LegacyEntry} {rest : List LegacyEntry}
  {told : List Entry}

/-- A row that the replay makes nothing of is passed over. -/
theorem copy_cons_of_none (hd : draft? (Chain.ofName? chain e.name) e = none) :
    copy log chain (e :: rest) = copy log chain rest := by
  rw [copy]
  dsimp only
  rw [hd]

namespace Knows

/-- **One row is told again** as the draft that the replay makes of it, if it makes one. -/
theorem retell_eq (h : Knows log chain e.name) (hsound : log.Sound) (htold : log.Retells told) :
    Legacy.retell told e =
      match draft? (Chain.ofName? chain e.name) e with
      | none => told
      | some d => told ++ [log.upcoming d] := by
  have hlast : (told.filter (·.name = e.name)).getLast? = (log.chain e.name).getLast? := by
    rw [htold.chain_eq]
  have hnext : (told.length : Int) + 1 = log.reached + 1 := by rw [htold.reached_eq hsound]
  rw [h.draft?_eq, Legacy.retell, hlast, hnext]
  rcases hhead : log.head? e.name with _ | p <;> have hfound := hhead <;>
    rw [Log.head?] at hfound <;> rw [hfound] <;> cases hdeleted : e.deleted
  case none.false => simp only [Bool.false_eq_true, if_false, Log.upcoming_birth]
  case none.true => rfl
  all_goals
    have hname : p.name = e.name :=
  (Log.mem_chain.1 (List.mem_of_getLast? (Log.head?_eq_some.1 hhead).1)).2.1
    simp [Log.upcoming_sequel, hname]

/-- What the replay writes is the row in which the store keeps the state. -/
theorem stored_upcoming (h : Knows log chain e.name) {d : Draft}
    (hd : draft? (Chain.ofName? chain e.name) e = some d) :
    (log.upcoming d).stored = d.toRow (log.reached + 1) := by
  rw [h.draft?_eq] at hd
  rcases hhead : log.head? e.name with _ | p <;> rw [hhead] at hd <;> dsimp only at hd
  · split at hd
    · cases hd
    · obtain rfl := Option.some.inj hd
      rw [Log.upcoming_birth]
      rfl
  · obtain rfl := Option.some.inj hd
    rw [Log.upcoming_sequel]
    rfl

/-- A row that the replay makes is written, as long as there is an id for it. -/
theorem copy_cons (h : Knows log chain e.name) (hsound : log.Sound) {d : Draft}
    (hd : draft? (Chain.ofName? chain e.name) e = some d)
    (hfits : log.reached < Revision.greatest) :
    copy log chain (e :: rest) =
      (copy (log.written d) (some (extend (Chain.ofName? chain e.name) e (log.reached + 1)))
        rest).map fun (n, log) => (n + 1, log) := by
  have hinsert : log.insert d = .ok (log.reached + 1, log.written d) := by
    rw [hsound.insert_eq (h.draft hd).1, Log.append_eq_ok]
    exact ⟨hfits, rfl, rfl⟩
  rw [copy]
  dsimp only
  rw [hd]
  dsimp only
  rw [hinsert, Store.ask_eq_ok.2 rfl]

end Knows

/-- **The replay tells all rows again**, as long as there are ids for their states. -/
theorem Replaying.copy_eq (h : Replaying log chain rest) (htold : log.Retells told)
    (hroom : ((rest.foldl Legacy.retell told).length : Int) ≤ Revision.greatest) :
    ∃ n copied, Migration.copy log chain rest = .ok (n, copied) ∧
      copied.Retells (rest.foldl Legacy.retell told) ∧
      told.length + n = (rest.foldl Legacy.retell told).length := by
  induction rest generalizing log chain told with
  | nil => exact ⟨0, log, rfl, htold, rfl⟩
  | cons e rest ih =>
    rw [List.foldl_cons, h.knows.retell_eq h.toSound htold] at hroom ⊢
    rcases hd : draft? (Chain.ofName? chain e.name) e with _ | d <;> rw [hd] at hroom <;>
      dsimp only at hroom ⊢
    · rw [copy_cons_of_none hd]
      exact ih h.skip htold hroom
    · have hlength := Legacy.length_le_foldl rest (told ++ [log.upcoming d])
      rw [List.length_append, List.length_singleton] at hlength
      have hfits : log.reached < Revision.greatest := by
        rw [htold.reached_eq h.toSound]
        omega
      obtain ⟨n, copied, hcopy, hcopied, hn⟩ :=
        ih (h.write hd) (htold.written h.toSound (h.knows.draft hd).1 (h.knows.stored_upcoming hd))
          hroom
      refine ⟨n + 1, copied, ?_, hcopied, ?_⟩
      · rw [h.knows.copy_cons h.toSound hd hfits, hcopy]
        rfl
      · rw [List.length_append, List.length_singleton] at hn
        omega

end Migration

/-! ## A migration of a fresh log -/

/-- No two rows of a sound log have the same link. -/
theorem Log.Sound.hasSharedLink_eq_false {log : Log} (h : log.Sound) :
    hasSharedLink log.rows = false := by
  have hall : ∀ rows : List Row, (∀ r ∈ rows, r ∈ log.rows) → rows.Pairwise (·.id < ·.id) →
      hasSharedLink rows = false := by
    intro rows hmem hordered
    induction rows with
    | nil => rfl
    | cons r rows ih =>
      obtain ⟨hafter, hrest⟩ := List.pairwise_cons.1 hordered
      have hr := hmem r List.mem_cons_self
      rw [hasSharedLink, ih (fun s hs => hmem s (List.mem_cons_of_mem r hs)) hrest, Bool.or_false,
        List.any_eq_false]
      intro s hs
      have hsmem := hmem s (List.mem_cons_of_mem r hs)
      rw [(h.plain r hr).sameLink_eq (h.plain s hsmem), decide_eq_true_iff]
      rintro ⟨hlink, hname⟩
      have heq :=
        h.links _ (mem_entries.2 ⟨r, hr, rfl⟩) _ (mem_entries.2 ⟨s, hsmem, rfl⟩) hlink hname
      have hlt := hafter s hs
      have hid : r.id = s.id := congrArg Entry.revision heq
      omega
  exact hall log.rows (fun _ hr => hr) log.ordered

namespace Log.Retells

variable {log : Log} {told : List Entry}

/-- What a log of these states answers, and in which order they are. -/
theorem reads (h : log.Retells told) (hsound : log.Sound) :
    log.rows.mapM Row.entry = .ok told ∧ Entry.Continuous 0 told ∧
      ∀ name, (Store.get log name 0).map (Option.map Entry.value) =
        .ok (Legacy.valueOf? told name) := by
  refine ⟨?_, ?_, ?_⟩
  · rw [mapM_entry hsound.plain, ← h.entries]
    rfl
  · have hfloor : log.floor = 0 := by rw [floor, h.watermark]; rfl
    rw [← h.entries, ← hfloor]
    exact hsound.continuous
  · intro name
    rw [hsound.get_zero, head?, h.chain_eq]
    rfl

/-- The indices of a log have no part in it. -/
theorem reindexed (h : log.Retells told) (indexing : Indexing) :
    Retells { log with indexing } told :=
  ⟨h.rows, h.entries, h.genuine, h.sequence, h.watermark⟩

end Log.Retells

namespace Legacy

/-- The last row of a name. -/
def last? (legacy : Legacy) (name : String) : Option LegacyRow :=
  (legacy.sorted.filter (·.name = .text name)).getLast?

/-- The states of a name that are read come from the rows of the name. -/
theorem Readable.filter_map_toEntry {legacy : Legacy} (h : legacy.Readable) (name : String) :
    (legacy.sorted.map LegacyRow.toEntry).filter (·.name = name) =
      (legacy.sorted.filter (·.name = .text name)).map LegacyRow.toEntry := by
  rw [List.filter_map]
  congr 1
  refine List.filter_congr fun r hr => ?_
  obtain ⟨s, hs⟩ := (h.rows r (List.mem_mergeSort.1 hr)).name
  simp [LegacyRow.toEntry, hs, Cell.toText]

/-- What is live after all states is what the last rows say. -/
theorem Readable.valueOf?_states {legacy : Legacy} (h : legacy.Readable) (name : String) :
    valueOf? legacy.states name =
      ((legacy.last? name).filter fun r => r.deleted.toInt = 0).map (·.value.payload) := by
  have hlive : (fun e : LegacyEntry => !e.deleted) ∘ LegacyRow.toEntry = fun r =>
      decide (r.deleted.toInt = 0) := by
    funext r
    simp [LegacyRow.toEntry]
  rw [states, valueOf?_foldl, h.filter_map_toEntry, List.getLast?_map, Option.filter_map,
    Option.map_map, hlive]
  rfl

theorem Regular.valueOf?_states {legacy : Legacy} (h : legacy.Regular) (name : String) :
    valueOf? legacy.states name =
      ((legacy.last? name).filter fun r => r.deleted.toInt = 0).map (·.value.payload) :=
  h.readable.valueOf?_states name

end Legacy

namespace Migration

/-- **A migration of a fresh log.** The rows of a regular table are told again in the order of names
and ids, as long as there are ids for the states that they make, which are more than the rows that a
file has room for. The log then holds just these states, numbered from one, in the rows that the
store itself would have written, and its new indices; they are in order, and what can be read under
a name is what the last row of the name says. -/
theorem migrate_states {legacy : Legacy} (h : legacy.Regular)
    (hroom : (legacy.states.length : Int) ≤ Revision.greatest) (indexing : Indexing) {version : Int}
    (hversion : version ≠ Migration.version) :
    legacy.sorted.Perm legacy.rows ∧ legacy.sorted.Pairwise Legacy.Before ∧
    ∃ log : Log,
      Transaction.run {} (.ok ()) (.ok ()) (.ok ()) Migration.run
          { log := some { indexing }, version, legacy := some legacy } =
        (.ok (.migrated legacy.states.length),
          { log := some log, version := Migration.version, legacy := some legacy }) ∧
      log.rows = legacy.states.map Entry.stored ∧ log.rows.mapM Row.entry = .ok legacy.states ∧
      legacy.states.map Entry.revision =
        (List.range legacy.states.length).map (fun i => (i : Int) + 1) ∧
      log.sequence = (if legacy.states = [] then none else some (legacy.states.length : Int)) ∧
      log.watermark = none ∧ log.indexing = .linkFirst ∧ Entry.Continuous 0 legacy.states ∧
      ∀ name, (Store.get log name 0).map (Option.map Entry.value) =
        .ok (((legacy.last? name).filter fun r => r.deleted.toInt = 0).map (·.value.payload)) := by
  have hreplaying := Log.replaying_empty indexing (Legacy.pairwise_read h.bytes h.read_eq)
  obtain ⟨n, copied, hcopy, htold, hn⟩ := hreplaying.copy_eq (Log.Retells.empty indexing) hroom
  obtain rfl : n = legacy.states.length := by rw [List.length_nil, Nat.zero_add] at hn; exact hn
  have hsound := hreplaying.copy hcopy
  have hrun := carryOut_run hversion h.read_eq hcopy hsound.hasSharedLink_eq_false
  have hindexed : Log.Sound { copied with indexing := .linkFirst } := { hsound with }
  obtain ⟨hread, hcontinuous, hvalue⟩ := (htold.reindexed .linkFirst).reads hindexed
  refine ⟨legacy.perm_sorted, h.pairwise_before, { copied with indexing := .linkFirst }, ?_,
    htold.rows, hread, legacy.revision_states, htold.sequence, htold.watermark, rfl, hcontinuous,
    ?_⟩
  · simp only [Transaction.run_eq, hrun]
    rfl
  · intro name
    rw [← h.valueOf?_states]
    exact hvalue name

/-- An older table, in no order, with deletions of keys that are not live, a key that comes back,
and payloads of other classes. -/
def scattered : Legacy where
  rows :=
    [⟨9, .text "b", .text "x", .null, .integer (-4)⟩,
      ⟨2, .text "a", .blob [1], .integer 1, .integer 0⟩,
      ⟨5, .text "a", .integer 42, .integer 0, .integer 7⟩,
      ⟨8, .text "a", .blob [8], .integer 0, .integer 0⟩,
      ⟨4, .text "a", .null, .integer 0, .null⟩,
      ⟨6, .text "a", .blob [9], .integer (-1), .integer 5⟩,
      ⟨7, .text "a", .blob [9], .integer 1, .integer 0⟩]

/-- The rows of that table in their order. -/
def gathered : List LegacyRow :=
  [⟨2, .text "a", .blob [1], .integer 1, .integer 0⟩, ⟨4, .text "a", .null, .integer 0, .null⟩,
    ⟨5, .text "a", .integer 42, .integer 0, .integer 7⟩,
    ⟨6, .text "a", .blob [9], .integer (-1), .integer 5⟩,
    ⟨7, .text "a", .blob [9], .integer 1, .integer 0⟩, ⟨8, .text "a", .blob [8], .integer 0,
      .integer 0⟩,
    ⟨9, .text "b", .text "x", .null, .integer (-4)⟩]

/-- Five of its seven rows leave a state. -/
theorem exists_migrate_states : ∃ log : Log,
    Transaction.run {} (.ok ()) (.ok ()) (.ok ()) Migration.run
        { log := some { indexing := .nameFirst }, version := 3, legacy := some scattered } =
      (.ok (.migrated 5), { log := some log, version := 1, legacy := some scattered }) ∧
    log.rows.mapM Row.entry = .ok
      [⟨1, "a", true, false, 1, 0, 0, [], []⟩, ⟨2, "a", false, false, 1, 1, 7, [52, 50], []⟩,
        ⟨3, "a", false, true, 1, 2, 5, [], [52, 50]⟩, ⟨4, "a", true, false, 4, 3, 0, [8], []⟩,
        ⟨5, "b", true, false, 5, 0, 0, [120], []⟩] ∧
    (Store.get log "a" 0).map (Option.map Entry.value) = .ok (some [8]) := by
  have hregular : scattered.Regular := by
    refine ⟨?_, by decide, rfl, rfl⟩
    intro r hr
    simp only [scattered, List.mem_cons, List.not_mem_nil, or_false] at hr
    rcases hr with rfl | rfl | rfl | rfl | rfl | rfl | rfl <;> exact ⟨⟨_, rfl⟩, by simp, by simp⟩
  -- the order is the only one there is
  have hsorted : scattered.sorted = gathered := by
    have hperm := scattered.perm_sorted.trans (by decide : scattered.rows.Perm gathered)
    refine hperm.eq_of_pairwise ?_ hregular.pairwise_before (by decide)
    intro r s hr hs hrs hsr
    exact absurd hsr hrs.not_before
  have hstates : scattered.states =
      [⟨1, "a", true, false, 1, 0, 0, [], []⟩, ⟨2, "a", false, false, 1, 1, 7, [52, 50], []⟩,
        ⟨3, "a", false, true, 1, 2, 5, [], [52, 50]⟩, ⟨4, "a", true, false, 4, 3, 0, [8], []⟩,
        ⟨5, "b", true, false, 5, 0, 0, [120], []⟩] := by
    rw [Legacy.states, hsorted]
    decide +kernel
  have hlast : scattered.last? "a" = some ⟨8, .text "a", .blob [8], .integer 0, .integer 0⟩ := by
    rw [Legacy.last?, hsorted]
    decide +kernel
  obtain ⟨-, -, log, hrun, -, hread, -, -, -, -, -, hvalue⟩ :=
    migrate_states hregular (by rw [hstates]; decide) .nameFirst
      (by decide : (3 : Int) ≠ Migration.version)
  rw [hstates] at hrun hread
  have hkey := hvalue "a"
  rw [hlast] at hkey
  exact ⟨log, hrun, hread, hkey⟩

end Migration

end RevisionLog
