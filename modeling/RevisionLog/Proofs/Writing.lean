import RevisionLog.Proofs.Questions

/-!
# Writing rows

What a log is after a row was written, and when a row can be written at all.

* `Log.put` — the log with one more row in its place, and its id remembered.
* `Log.insert_eq_ok` — a draft that was written is a row put in its place, and its link was free.
* `Log.insert_of_users` — a row of a user gets the next id, and is refused only if no id is left or
  its link is taken.
* `Log.fill_eq_ok` — a placeholder that was written.
-/

namespace RevisionLog.Log

variable {log log' : Log}

/-! ## Rows in their places -/

theorem place_of_forall_lt {r : Row} {rows : List Row} (hlt : ∀ s ∈ rows, s.id < r.id) :
    place r rows = rows ++ [r] := by
  induction rows with
  | nil => rfl
  | cons s rows ih =>
    have hs := hlt s List.mem_cons_self
    rw [place, if_neg (by omega), ih fun t ht => hlt t (List.mem_cons_of_mem s ht),
      List.cons_append]

/-- A row that a condition passes over leaves what the condition selects as it is. -/
theorem filter_place_of_neg {r : Row} {p : Row → Bool} (hr : p r = false) (rows : List Row) :
    (place r rows).filter p = rows.filter p := by
  induction rows with
  | nil => simp [place, hr]
  | cons s rows ih =>
    unfold place
    split
    · rw [List.filter_cons_of_neg (by rw [hr]; decide)]
    · rw [List.filter_cons, List.filter_cons, ih]

/-! ## The log after a row -/

/-- The log with one more row in its place, and its id remembered. -/
def put (log : Log) (r : Row) (fresh : ∀ s ∈ log.rows, s.id ≠ r.id) : Log :=
  { log with
    rows := place r log.rows
    ordered := pairwise_place log.ordered fresh
    sequence := some (max (log.sequence.getD 0) r.id) }

section Put

variable {r : Row} {fresh : ∀ s ∈ log.rows, s.id ≠ r.id}

@[simp] theorem rows_put : (log.put r fresh).rows = place r log.rows := rfl

@[simp] theorem floor_put : (log.put r fresh).floor = log.floor := rfl

theorem mem_rows_put {s : Row} : s ∈ (log.put r fresh).rows ↔ s = r ∨ s ∈ log.rows := mem_place

theorem mem_entries_put {e : Entry} :
    e ∈ (log.put r fresh).entries ↔ e = r.toEntry ∨ e ∈ log.entries := by
  rw [mem_entries, mem_entries]
  constructor
  · rintro ⟨s, hs, rfl⟩
    rcases mem_rows_put.1 hs with rfl | hs
    · exact Or.inl rfl
    · exact Or.inr ⟨s, hs, rfl⟩
  · rintro (rfl | ⟨s, hs, rfl⟩)
    · exact ⟨r, mem_rows_put.2 (Or.inl rfl), rfl⟩
    · exact ⟨s, mem_rows_put.2 (Or.inr hs), rfl⟩

/-- What holds of the new row and of all others holds of all rows. -/
theorem forall_entries_put {P : Entry → Prop} (hr : P r.toEntry) (h : ∀ e ∈ log.entries, P e) :
    ∀ e ∈ (log.put r fresh).entries, P e := by
  intro e he
  rcases mem_entries_put.1 he with rfl | he
  · exact hr
  · exact h e he

theorem forall_rows_put {P : Row → Prop} (hr : P r) (h : ∀ s ∈ log.rows, P s) :
    ∀ s ∈ (log.put r fresh).rows, P s := by
  intro s hs
  rcases mem_rows_put.1 hs with rfl | hs
  · exact hr
  · exact h s hs

/-- A row above all others comes last. -/
theorem entries_put_of_forall_lt (hlt : ∀ s ∈ log.rows, s.id < r.id) :
    (log.put r fresh).entries = log.entries ++ [r.toEntry] := by
  rw [entries, rows_put, place_of_forall_lt hlt, List.map_append, List.map_cons, List.map_nil,
    ← entries]

/-- A state of a name above all rows comes at the end of the chain of its name. -/
theorem chain_put_self (hlt : ∀ s ∈ log.rows, s.id < r.id) (hgap : r.toEntry.isGap = false) :
    (log.put r fresh).chain r.toEntry.name = log.chain r.toEntry.name ++ [r.toEntry] := by
  rw [chain, entries_put_of_forall_lt hlt, List.filter_append, ← chain]
  simp [Entry.isStateOf, hgap]

/-- A row that is no state of a name leaves the chain of the name as it is. -/
theorem chain_put_of_neg {name : String} (hr : r.toEntry.isStateOf name = false) :
    (log.put r fresh).chain name = log.chain name := by
  rw [chain, chain, entries, entries, List.filter_map, List.filter_map]
  exact congrArg (List.map Row.toEntry)
    (filter_place_of_neg (p := Entry.isStateOf name ∘ Row.toEntry) hr log.rows)

/-- A placeholder stands in no chain. -/
theorem chain_put_placeholder {g id : Int}
    {fresh : ∀ s ∈ log.rows, s.id ≠ ((Draft.placeholder g).toRow id).id} (name : String) :
    (log.put ((Draft.placeholder g).toRow id) fresh).chain name = log.chain name := by
  refine chain_put_of_neg ?_
  rw [Draft.toEntry_placeholder, Entry.isStateOf, Entry.isGap]
  simp

end Put

/-! ## Drafts -/

/-- The highest id there is or ever was. -/
def reached (log : Log) : Int := max (log.sequence.getD 0) (log.greatest?.getD 0)

theorem nextId?_eq (log : Log) :
    log.nextId? = if log.reached < Revision.greatest then some (log.reached + 1) else none := rfl

theorem id_le_reached {r : Row} (hr : r ∈ log.rows) : r.id ≤ log.reached :=
  Int.le_trans (id_le_greatest hr) (Int.le_max_right _ _)

/-- A draft that was written is a row put in its place, and its link was free. -/
theorem insert_eq_ok {d : Draft} {id : Int} (h : log.insert d = .ok (id, log')) :
    log.idOf d = .ok id ∧ log.linkClash? (d.toRow id) = none ∧
    ∃ fresh, log' = log.put (d.toRow id) fresh := by
  unfold insert at h
  split at h
  · cases h
  · next id' hid =>
    split at h
    · cases h
    · dsimp only at h
      split at h
      · next fresh =>
        split at h
        · cases h
        · next hclash =>
          simp only [Except.ok.injEq, Prod.mk.injEq] at h
          obtain ⟨rfl, rfl⟩ := h
          exact ⟨hid, hclash, fresh, rfl⟩
      · cases h

/-- A draft with a free id and a free link is written. -/
theorem insert_of_free {d : Draft} {id : Int} (hid : log.idOf d = .ok id)
    (hmissing : d.missing? = none) (fresh : ∀ s ∈ log.rows, s.id ≠ id)
    (hclash : log.linkClash? (d.toRow id) = none) :
    log.insert d = .ok (id, log.put (d.toRow id) fresh) := by
  have fresh' : ∀ s ∈ log.rows, s.id ≠ (d.toRow id).id := fresh
  simp only [insert, hid, hmissing, hclash]
  rw [dif_pos fresh']
  rfl

/-- A draft with a taken link is refused. -/
theorem insert_of_clash {d : Draft} {id : Int} {fault : Fault} (hid : log.idOf d = .ok id)
    (hmissing : d.missing? = none) (fresh : ∀ s ∈ log.rows, s.id ≠ id)
    (hclash : log.linkClash? (d.toRow id) = some fault) : log.insert d = .error fault := by
  have fresh' : ∀ s ∈ log.rows, s.id ≠ (d.toRow id).id := fresh
  simp only [insert, hid, hmissing, hclash]
  rw [dif_pos fresh']

/-! ## Rows of users -/

/-- The next id is free. -/
theorem fresh_reached : ∀ s ∈ log.rows, s.id ≠ log.reached + 1 := by
  intro s hs
  have := id_le_reached hs
  omega

/-- The entry that a draft becomes when it is written under the next id. -/
def upcoming (log : Log) (d : Draft) : Entry := (d.toRow (log.reached + 1)).toEntry

@[simp] theorem revision_upcoming (d : Draft) : (log.upcoming d).revision = log.reached + 1 := rfl

/-- The log with a row behind all others. -/
def written (log : Log) (d : Draft) : Log := log.put (d.toRow (log.reached + 1)) fresh_reached

/-- A row written behind all others, unless no id is left. -/
def append (log : Log) (d : Draft) : Except Fault (Int × Log) :=
  if log.reached < Revision.greatest then .ok (log.reached + 1, log.written d) else .error .full

theorem append_eq_ok {d : Draft} {id : Int} :
    log.append d = .ok (id, log') ↔
      log.reached < Revision.greatest ∧ id = log.reached + 1 ∧ log' = log.written d := by
  unfold append
  split
  · next hlt => simp [hlt, eq_comm]
  · next hge => simp [hge]

theorem idOf_of_users (log : Log) {d : Draft} (hd : d.IsUsers) :
    log.idOf d = if log.reached < Revision.greatest then .ok (log.reached + 1)
      else .error .full := by
  obtain ⟨name, created, deleted, createRevision, prevRevision, lease, value, oldValue, rfl⟩ := hd
  simp only [idOf, Draft.ofUser, Affinity.apply_integer_null, nextId?_eq]
  split <;> simp_all

/-- A row of a user whose link is free is written behind all others. -/
theorem insert_of_users {d : Draft} (hd : d.IsUsers)
    (hfree : log.linkClash? (d.toRow (log.reached + 1)) = none) : log.insert d = log.append d := by
  have hid := log.idOf_of_users hd
  unfold append
  split
  · next hlt =>
    rw [if_pos hlt] at hid
    exact insert_of_free hid hd.missing?_eq fresh_reached hfree
  · next hge =>
    rw [if_neg hge] at hid
    simp only [insert, hid]

/-- A row of a user whose link is taken is refused, and for no other reason as long as ids
are left. -/
theorem insert_of_users_of_clash {d : Draft} (hd : d.IsUsers) {fault : Fault}
    (hclash : log.linkClash? (d.toRow (log.reached + 1)) = some fault) :
    log.insert d = .error (if log.reached < Revision.greatest then fault else .full) := by
  have hid := log.idOf_of_users hd
  split
  · next hlt =>
    rw [if_pos hlt] at hid
    exact insert_of_clash hid hd.missing?_eq fresh_reached hclash
  · next hge =>
    rw [if_neg hge] at hid
    simp only [insert, hid]

/-! ## Links -/

/-- Where links are kept unique, a link is free that no row has. -/
theorem linkClash?_eq_none {r : Row} (hfree : ∀ s ∈ log.rows, r.sameLink s = false) :
    log.linkClash? r = none := by
  have hany : log.rows.any r.sameLink = false :=
    List.any_eq_false.2 fun s hs => by simp [hfree s hs]
  rw [linkClash?]
  split
  · rfl
  · rw [hany]
    rfl

theorem linkClash?_of_mem {r s : Row} (hindex : log.indexing ≠ .unindexed) (hs : s ∈ log.rows)
    (hlink : r.sameLink s = true) : ∃ columns, log.linkClash? r = some (.takenLink columns) := by
  have hany : log.rows.any r.sameLink = true := List.any_eq_true.2 ⟨s, hs, hlink⟩
  rw [linkClash?]
  rcases hcolumns : log.indexing.linkColumns? with _ | columns
  · cases hindexing : log.indexing <;> rw [hindexing] at hcolumns hindex <;> cases hcolumns
    exact absurd rfl hindex
  · dsimp only
    rw [if_pos hany]
    exact ⟨_, rfl⟩

/-- Of a link nothing is told but that it is taken. -/
theorem exists_takenLink {r : Row} {fault : Fault} (h : log.linkClash? r = some fault) :
    ∃ columns, fault = .takenLink columns := by
  unfold linkClash? at h
  split at h
  · cases h
  · split at h
    · cases h
      exact ⟨_, rfl⟩
    · cases h

theorem sameLink_of_linkClash?_eq_none {r s : Row} (hindex : log.indexing = .linkFirst)
    (hfree : log.linkClash? r = none) (hs : s ∈ log.rows) : r.sameLink s = false := by
  by_contra hlink
  obtain ⟨columns, htaken⟩ :=
    linkClash?_of_mem (by rw [hindex]; decide) hs (eq_true_of_ne_false hlink)
  rw [htaken] at hfree
  cases hfree

/-! ## Placeholders -/

/-- A placeholder that was written stands at its id, and its link was free. -/
theorem fill_eq_ok {id : Int} (h : log.fill id = .ok log') :
    log.linkClash? ((Draft.placeholder id).toRow id) = none ∧
      ∃ fresh, log' = log.put ((Draft.placeholder id).toRow id) fresh := by
  rw [fill] at h
  rcases hinsert : log.insert (.placeholder id) with e | ⟨id', log''⟩
  · rw [hinsert] at h
    cases h
  · rw [hinsert] at h
    obtain rfl := Except.ok.inj h
    obtain ⟨hid, hclash, hput⟩ := insert_eq_ok hinsert
    obtain rfl : id = id' := Except.ok.inj hid
    exact ⟨hclash, hput⟩

/-- A placeholder whose id and link are free is written. -/
theorem fill_of_free {id : Int}
    (fresh : ∀ s ∈ log.rows, s.id ≠ ((Draft.placeholder id).toRow id).id)
    (hfree : ∀ s ∈ log.rows, ((Draft.placeholder id).toRow id).sameLink s = false) :
    log.fill id = .ok (log.put ((Draft.placeholder id).toRow id) fresh) := by
  have hid : log.idOf (.placeholder id) = .ok id := rfl
  rw [fill, insert_of_free hid rfl fresh (linkClash?_eq_none hfree)]
  rfl

end RevisionLog.Log
