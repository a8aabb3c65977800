import Mathlib.Data.Set.Insert
import RevisionLog.Proofs.Agreement

/-!
# Placeholders out of sight

Ids that were passed over may be claimed with placeholders behind the back of the clients. A log
with such placeholders answers like the one without them, whatever the clients write and read, and
whatever the names are. Compaction takes the placeholders away up to its revision and is the same
for all other rows.

Ids begin with one. A placeholder at zero would be seen: it follows itself, and zero is what the
first state of a name follows.

* `Log.Padded` — a log, and the same one with more placeholders.
* `Log.Padded.on` — whatever clients ask but a compaction, both logs answer the same and go on to
  differ as before.
* `Log.Padded.compact` — compaction leaves both with the same rows, and the placeholders above its
  revision.
* `Log.Start.fill_unseen` — all this for a run that reaches a log, the claims, and a run of clients
  after them.
* `Log.exists_fill_seen` — a placeholder at zero is seen.
-/

namespace RevisionLog

open Store

/-- The row of a placeholder. -/
def gapRow (id : Int) : Row := (Draft.placeholder id).toRow id

@[simp] theorem id_gapRow (id : Int) : (gapRow id).id = id := rfl

theorem isPlain_gapRow (id : Int) : (gapRow id).IsPlain := Draft.isPlain_placeholder id id

theorem toEntry_gapRow (id : Int) : (gapRow id).toEntry =
    { revision := id, name := Draft.gapStart ++ toString id, created := true, deleted := true,
      createRevision := id
      prevRevision := id, lease := 0, value := [], oldValue := [] } :=
        Draft.toEntry_placeholder id id

namespace Log

/-- The second log is the first one with placeholders at some ids that the first one has
passed over. -/
structure Padded (a b : Log) (gaps : Set Int) : Prop where
  rows : ∀ r, r ∈ b.rows ↔ r ∈ a.rows ∨ ∃ id ∈ gaps, r = gapRow id
  /-- the first log has no row there -/
  absent : ∀ id ∈ gaps, ∀ r ∈ a.rows, r.id ≠ id
  /-- ids begin with one, and nothing is claimed at zero -/
  nonzero : ∀ id ∈ gaps, id ≠ 0
  /-- nothing is claimed above the rows there are -/
  below : ∀ id ∈ gaps, ∃ r ∈ a.rows, id < r.id
  sequence : b.sequence.getD 0 = a.sequence.getD 0
  watermark : b.watermark = a.watermark
  indexing : b.indexing = a.indexing

/-- A log is padded with nothing. -/
theorem padded_refl (log : Log) : log.Padded log ∅ where
  rows r := by simp
  absent id hid := hid.elim
  nonzero id hid := hid.elim
  below id hid := hid.elim
  sequence := rfl
  watermark := rfl
  indexing := rfl

namespace Padded

variable {a b : Log} {gaps : Set Int} {revision : Int}

/-! ## Revisions -/

theorem mem_entries (h : a.Padded b gaps) {e : Entry} :
    e ∈ b.entries ↔ e ∈ a.entries ∨ ∃ id ∈ gaps, e = (gapRow id).toEntry := by
  rw [Log.mem_entries, Log.mem_entries]
  constructor
  · rintro ⟨r, hr, rfl⟩
    rcases (h.rows r).1 hr with hr | ⟨id, hid, rfl⟩
    · exact Or.inl ⟨r, hr, rfl⟩
    · exact Or.inr ⟨id, hid, rfl⟩
  · rintro (⟨r, hr, rfl⟩ | ⟨id, hid, rfl⟩)
    · exact ⟨r, (h.rows r).2 (Or.inl hr), rfl⟩
    · exact ⟨_, (h.rows _).2 (Or.inr ⟨id, hid, rfl⟩), rfl⟩

/-- A state of the first log has none of the ids that are claimed. -/
theorem not_mem_of_entry (h : a.Padded b gaps) {e : Entry} (he : e ∈ a.entries) :
    e.revision ∉ gaps := by
  obtain ⟨r, hr, rfl⟩ := Log.mem_entries.1 he
  exact fun hid => h.absent _ hid r hr rfl

/-- The padded log is as tidy as the other one. -/
theorem tidy (h : a.Padded b gaps) (ha : a.Tidy) : b.Tidy where
  plain r hr := by
    rcases (h.rows r).1 hr with hr | ⟨id, -, rfl⟩
    · exact ha.plain r hr
    · exact isPlain_gapRow id
  watermark c hc := ha.watermark c (h.watermark ▸ hc)
  backward e he := by
    rcases h.mem_entries.1 he with he | ⟨id, -, rfl⟩
    · exact ha.backward e he
    · rw [toEntry_gapRow]

theorem floor_eq (h : a.Padded b gaps) : b.floor = a.floor := by
  rw [floor, floor, h.watermark]

theorem greatest?_eq (h : a.Padded b gaps) : b.greatest? = a.greatest? := by
  rcases hmax : a.greatest? with _ | g
  · -- without a row there is nothing below one
    have hids : a.ids = [] := List.max?_eq_none_iff.1 hmax
    have hnone : a.rows = [] := List.map_eq_nil_iff.1 hids
    have hnone' : b.rows = [] := by
      refine List.eq_nil_iff_forall_not_mem.2 fun r hr => ?_
      rcases (h.rows r).1 hr with hr | ⟨id, hid, -⟩
      · exact List.not_mem_nil (hnone ▸ hr)
      · obtain ⟨s, hs, -⟩ := h.below id hid
        exact List.not_mem_nil (hnone ▸ hs)
    rw [greatest?, ids, hnone']
    rfl
  · obtain ⟨hmem, hupper⟩ := List.max?_eq_some_iff.1 hmax
    refine List.max?_eq_some_iff.2 ⟨?_, ?_⟩
    · obtain ⟨r, hr, rfl⟩ := List.mem_map.1 hmem
      exact List.mem_map_of_mem ((h.rows r).2 (Or.inl hr))
    · intro n hn
      obtain ⟨r, hr, rfl⟩ := List.mem_map.1 hn
      rcases (h.rows r).1 hr with hr | ⟨id, hid, rfl⟩
      · exact hupper _ (List.mem_map_of_mem hr)
      · obtain ⟨s, hs, hlt⟩ := h.below id hid
        have hle := hupper _ (List.mem_map_of_mem hs)
        rw [id_gapRow]
        omega

theorem current_eq (h : a.Padded b gaps) : b.current = a.current := by
  rw [current, current, h.greatest?_eq, h.floor_eq]

theorem reached_eq (h : a.Padded b gaps) : b.reached = a.reached := by
  rw [reached, reached, h.greatest?_eq, h.sequence]

theorem resolve_eq (h : a.Padded b gaps) (ha : a.Tidy) (revision : Int) :
    Store.resolve b revision = Store.resolve a revision := by
  rw [(h.tidy ha).resolve_eq, ha.resolve_eq, h.current_eq, h.floor_eq]

/-! ## States -/

/-- **Placeholders stand in no chain.** -/
theorem chain_eq (h : a.Padded b gaps) (name : String) : b.chain name = a.chain name := by
  refine eq_of_mem_iff_of_pairwise (b.pairwise_chain name) (a.pairwise_chain name) fun e => ?_
  rw [mem_chain, mem_chain, h.mem_entries]
  constructor
  · rintro ⟨he | ⟨id, -, rfl⟩, hname, hgap⟩
    · exact ⟨he, hname, hgap⟩
    · rw [toEntry_gapRow] at hgap
      cases hgap
  · rintro ⟨he, hname, hgap⟩
    exact ⟨Or.inl he, hname, hgap⟩

theorem liveAt?_eq (h : a.Padded b gaps) (name : String) (revision : Int) :
    b.liveAt? name revision = a.liveAt? name revision := by
  rw [liveAt?, liveAt?, h.chain_eq]

theorem standing_eq (h : a.Padded b gaps) (pattern : String) (revision : Int) :
    b.standing pattern revision = a.standing pattern revision := by
  refine eq_of_mem_iff_of_pairwise (b.pairwise_entries.filter _) (a.pairwise_entries.filter _)
    fun e => ?_
  exact (mem_standing.trans (by rw [h.liveAt?_eq])).trans mem_standing.symm

/-- A pattern is too long for both logs or for none, as all rows are matched. -/
theorem overlong_iff (h : a.Padded b gaps) (hindexed : a.indexing = .linkFirst) (pattern : String)
    (revision : Int) : b.Overlong pattern revision ↔ a.Overlong pattern revision := by
  have hleft : a.indexing ≠ .unindexed := by rw [hindexed]; decide
  have hright : b.indexing ≠ .unindexed := by rw [h.indexing]; exact hleft
  refine and_congr_right fun _ => ?_
  constructor
  · rintro ⟨e, he, -⟩
    rcases h.mem_entries.1 he with he | ⟨id, hid, -⟩
    · exact ⟨e, he, Or.inl hleft⟩
    · obtain ⟨r, hr, -⟩ := h.below id hid
      exact ⟨r.toEntry, List.mem_map_of_mem hr, Or.inl hleft⟩
  · rintro ⟨e, he, -⟩
    exact ⟨e, h.mem_entries.2 (Or.inl he), Or.inl hright⟩

/-! ## Reads -/

theorem get_eq (h : a.Padded b gaps) (ha : a.Tidy) (name : String) (revision : Int) :
    Store.get b name revision = Store.get a name revision := by
  have hresolve := h.resolve_eq ha revision
  rcases hr : Store.resolve a revision with e | at'
  · rw [Store.get, Store.get, hresolve, hr]
    rfl
  · rw [ha.get_eq name hr, (h.tidy ha).get_eq name (hresolve.trans hr), h.chain_eq]

theorem list_eq (h : a.Padded b gaps) (ha : a.Intact) (start : String) (limit : Nat)
    (revision : Int) : Store.list b start limit revision = Store.list a start limit revision := by
  have hresolve := h.resolve_eq ha.toTidy revision
  rcases hr : Store.resolve a revision with e | at'
  · rw [list_of_refused hr, list_of_refused (hresolve.trans hr)]
  · rw [ha.toTidy.list_eq start limit hr,
      (h.tidy ha.toTidy).list_eq start limit (hresolve.trans hr), h.standing_eq]
    simp only [h.overlong_iff ha.indexed]

theorem count_eq (h : a.Padded b gaps) (ha : a.Intact) (start : String) (revision : Int) :
    Store.count b start revision = Store.count a start revision := by
  have hresolve := h.resolve_eq ha.toTidy revision
  rcases hr : Store.resolve a revision with e | at'
  · rw [ha.toTidy.count_of_refused hr, (h.tidy ha.toTidy).count_of_refused (hresolve.trans hr)]
  · rw [ha.toTidy.count_eq start hr, (h.tidy ha.toTidy).count_eq start (hresolve.trans hr),
      h.standing_eq, h.current_eq]
    simp only [h.overlong_iff ha.indexed]

/-! ## Writes -/

/-- Both logs get the same row under an id that neither has. -/
theorem put (h : a.Padded b gaps) {r : Row} (fresh : ∀ s ∈ a.rows, s.id ≠ r.id)
    (fresh' : ∀ s ∈ b.rows, s.id ≠ r.id) : (a.put r fresh).Padded (b.put r fresh') gaps where
  rows s := by
    rw [mem_rows_put, mem_rows_put, h.rows, or_assoc]
  absent id hid := by
    refine forall_rows_put ?_ (h.absent id hid)
    intro hrid
    exact fresh' (gapRow id) ((h.rows _).2 (Or.inr ⟨id, hid, rfl⟩)) hrid.symm
  nonzero := h.nonzero
  below id hid := by
    obtain ⟨s, hs, hlt⟩ := h.below id hid
    exact ⟨s, mem_rows_put.2 (Or.inr hs), hlt⟩
  sequence := congrArg (max · r.id) h.sequence
  watermark := h.watermark
  indexing := h.indexing

/-- Two outcomes of a write are the same revision and logs that differ in placeholders, or the same
refusal. -/
inductive Alike (gaps : Set Int) : Except Error (Int × Log) → Except Error (Int × Log) → Prop
  | ok {n : Int} {a b : Log} : a.Padded b gaps → Alike gaps (.ok (n, a)) (.ok (n, b))
  | error (e : Error) : Alike gaps (.error e) (.error e)

/-- A link is taken in both logs or in none, unless it leads to a placeholder. -/
theorem linkClash?_eq (h : a.Padded b gaps) {r : Row} (hr : r.IsPlain)
    (hlink : r.toEntry.prevRevision ∉ gaps) : b.linkClash? r = a.linkClash? r := by
  have hany : b.rows.any r.sameLink = a.rows.any r.sameLink := by
    rw [Bool.eq_iff_iff, List.any_eq_true, List.any_eq_true]
    constructor
    · rintro ⟨s, hs, hsame⟩
      rcases (h.rows s).1 hs with hs | ⟨id, hid, rfl⟩
      · exact ⟨s, hs, hsame⟩
      · rw [hr.sameLink_eq (isPlain_gapRow id), decide_eq_true_iff, toEntry_gapRow] at hsame
        exact absurd (hsame.1 ▸ hid) hlink
    · rintro ⟨s, hs, hsame⟩
      exact ⟨s, (h.rows s).2 (Or.inl hs), hsame⟩
  rw [linkClash?, linkClash?, h.indexing, hany]

/-- The same row at the end of both logs. -/
theorem written (h : a.Padded b gaps) (d : Draft) : (a.written d).Padded (b.written d) gaps := by
  have hput : ∀ n (fresh : ∀ s ∈ b.rows, s.id ≠ (d.toRow n).id), n = a.reached + 1 →
      (a.written d).Padded (b.put (d.toRow n) fresh) gaps := by
    rintro n fresh rfl
    exact h.put _ fresh
  exact hput (b.reached + 1) fresh_reached (by rw [h.reached_eq])

/-- A row of a user comes to the same in both logs, unless it follows a placeholder. -/
theorem insert (h : a.Padded b gaps) {d : Draft} (hd : d.IsUsers)
    (hlink : (a.upcoming d).prevRevision ∉ gaps) :
    Alike gaps (ask (a.insert d)) (ask (b.insert d)) := by
  have hclash := h.linkClash?_eq (hd.isPlain (a.reached + 1)) hlink
  have hreached := h.reached_eq
  rcases hfree : a.linkClash? (d.toRow (a.reached + 1)) with _ | fault
  · rw [insert_of_users hd hfree, insert_of_users hd (by rw [hreached, hclash, hfree]), append,
      append, hreached]
    by_cases hlt : a.reached < Revision.greatest
    · rw [if_pos hlt, if_pos hlt]
      exact .ok (h.written d)
    · rw [if_neg hlt, if_neg hlt]
      exact .error _
  · rw [insert_of_users_of_clash hd hfree,
      insert_of_users_of_clash hd (by rw [hreached, hclash, hfree]), hreached]
    exact .error _

theorem create (h : a.Padded b gaps) (ha : a.Tidy) (name : String) (value : Octets) (lease : Int) :
    Alike gaps (Store.create a name value lease) (Store.create b name value lease) := by
  have hinsert : ∀ prevRevision, prevRevision ∉ gaps →
      Alike gaps (ask (a.insert (.ofUser name true false 0 prevRevision lease value [])))
        (ask (b.insert (.ofUser name true false 0 prevRevision lease value []))) := by
    intro prevRevision hlink
    refine h.insert ⟨_, _, _, _, _, _, _, _, rfl⟩ ?_
    rwa [upcoming, Draft.toEntry_ofUser]
  rw [Store.create, Store.create, ha.entryOf_latest, (h.tidy ha).entryOf_latest, h.chain_eq]
  rcases hlast : (a.chain name).getLast? with _ | p
  · exact hinsert 0 fun hzero => h.nonzero 0 hzero rfl
  · have hmem := (mem_chain.1 (List.mem_of_getLast? hlast)).1
    simp only [bind, Except.bind]
    by_cases hdeleted : p.deleted = true
    · rw [if_pos hdeleted, if_pos hdeleted]
      exact hinsert p.revision (h.not_mem_of_entry hmem)
    · rw [if_neg hdeleted, if_neg hdeleted]
      exact .error .keyExists

/-- A writer finds the same live state in both logs, or none in either. -/
theorem liveEntry_cases (h : a.Padded b gaps) (ha : a.Tidy) (name : String) (expected : Int) :
    (∃ e ∈ a.entries, liveEntry a name expected = .ok e ∧ liveEntry b name expected = .ok e) ∨
      (liveEntry a name expected = .error .keyExists ∧
        liveEntry b name expected = .error .keyExists) := by
  by_cases hfound : ∃ e ∈ a.entries, e.revision = expected ∧ e.name = name ∧ e.deleted = false
  · obtain ⟨e, he, rfl, rfl, hlive⟩ := hfound
    exact Or.inl ⟨e, he, ha.liveEntry_of_mem he hlive,
      (h.tidy ha).liveEntry_of_mem (h.mem_entries.2 (Or.inl he)) hlive⟩
  · have hleft : ∀ e ∈ a.entries, e.revision = expected → e.name = name → e.deleted = true := by
      intro e he hrev hname
      by_contra hlive
      exact hfound ⟨e, he, hrev, hname, eq_false_of_ne_true hlive⟩
    refine Or.inr ⟨ha.liveEntry_of_forall hleft, (h.tidy ha).liveEntry_of_forall ?_⟩
    intro e he hrev hname
    rcases h.mem_entries.1 he with he | ⟨id, -, rfl⟩
    · exact hleft e he hrev hname
    · rw [toEntry_gapRow]

theorem swap (h : a.Padded b gaps) (ha : a.Tidy) (name : String) (deleted : Bool) (value : Octets)
    (expected lease : Int) :
    Alike gaps (a.swap name deleted value expected lease)
        (b.swap name deleted value expected lease) := by
  rw [Log.swap, Log.swap]
  rcases h.liveEntry_cases ha name expected with ⟨e, he, hleft, hright⟩ | ⟨hleft, hright⟩
  · rw [hleft, hright]
    refine h.insert ⟨_, _, _, _, _, _, _, _, rfl⟩ ?_
    rw [upcoming, Draft.toEntry_ofUser]
    exact h.not_mem_of_entry he
  · rw [hleft, hright]
    exact .error _

/-! ## Whatever is asked -/

theorem perform (h : a.Padded b gaps) {op : Op} (hop : Alike gaps (op.on a) (op.on b)) :
    (op.perform a).1 = (op.perform b).1 ∧ (op.perform a).2.Padded (op.perform b).2 gaps := by
  rw [Op.perform, Op.perform]
  generalize op.on a = x at hop
  generalize op.on b = y at hop
  cases hop with
  | ok hpadded => exact ⟨rfl, hpadded⟩
  | error e => exact ⟨rfl, h⟩

/-- **Whatever clients ask but a compaction**, both logs answer the same and differ as before. -/
theorem on (h : a.Padded b gaps) (ha : a.Intact) {ask : Ask} (hask : ask.isCompact = false) :
    (ask.on a).1 = (ask.on b).1 ∧ (ask.on a).2.Padded (ask.on b).2 gaps := by
  have htidy := ha.toTidy
  cases ask with
  | request r =>
    have hperform : (r.op.perform a).1 = (r.op.perform b).1 ∧
        (r.op.perform a).2.Padded (r.op.perform b).2 gaps := by
      refine h.perform ?_
      cases r with
      | create name value lease => exact h.create htidy name value lease
      | update name value expected lease => exact h.swap htidy name false value expected lease
      | delete name expected => exact h.swap htidy name true [] expected 0
      | compact revision => cases hask
    exact ⟨congrArg Answer.number hperform.1, hperform.2⟩
  | get name revision => exact ⟨congrArg Answer.entry (h.get_eq htidy name revision).symm, h⟩
  | list start limit revision =>
    exact ⟨congrArg Answer.entries (h.list_eq ha start limit revision).symm, h⟩
  | count start revision => exact ⟨congrArg Answer.counted (h.count_eq ha start revision).symm, h⟩
  | currentRevision =>
    have hcurrent : Store.currentRevision a = Store.currentRevision b := by
      rw [htidy.store_currentRevision, (h.tidy htidy).store_currentRevision, h.current_eq]
    exact ⟨congrArg Answer.number hcurrent, h⟩

end Padded

/-- The log after a run of asks. -/
def asked (log : Log) (asks : List Ask) : Log := asks.foldl (fun log ask => (ask.on log).2) log

/-- Whatever is asked keeps a log intact. -/
theorem Intact.on {log : Log} (h : log.Intact) (ask : Ask) : (ask.on log).2.Intact := by
  cases ask with
  | request r => exact h.perform r.op
  | _ => exact h

namespace Padded

variable {a b : Log} {gaps : Set Int} {revision : Int}

/-- Over a run without compactions the answers are the same. -/
theorem exchanges (h : a.Padded b gaps) (ha : a.Intact) {asks : List Ask}
    (hasks : ∀ ask ∈ asks, ask.isCompact = false) :
    (a.exchanges asks).map Exchange.answer = (b.exchanges asks).map Exchange.answer ∧
      (a.asked asks).Padded (b.asked asks) gaps ∧ (a.asked asks).Intact := by
  induction asks generalizing a b with
  | nil => exact ⟨rfl, h, ha⟩
  | cons ask asks ih =>
    obtain ⟨hanswer, hnext⟩ := h.on ha (hasks ask List.mem_cons_self)
    obtain ⟨hanswers, hrest⟩ := ih hnext (ha.on ask) fun later hlater =>
      hasks later (List.mem_cons_of_mem ask hlater)
    refine ⟨?_, hrest⟩
    rw [Log.exchanges, Log.exchanges, List.map_cons, List.map_cons, hanswer, hanswers]

/-! ## Claims -/

/-- One more id is claimed. -/
theorem fill (h : a.Padded b gaps) (ha : a.Sound) {id : Int} {filled : Log} (hzero : id ≠ 0)
    (hbelow : ∃ r ∈ a.rows, id < r.id) (hfill : Store.fill b id = .ok filled) :
    a.Padded filled (Insert.insert id gaps) := by
  obtain ⟨-, fresh, rfl⟩ := fill_eq_ok (ask_eq_ok.1 hfill)
  refine
    { rows := ?rows
      absent := ?absent
      nonzero := ?nonzero
      below := ?below
      sequence := ?sequence
      watermark := h.watermark
      indexing := h.indexing }
  case rows =>
    intro r
    rw [mem_rows_put, h.rows]
    simp only [Set.mem_insert_iff, exists_eq_or_imp]
    exact or_left_comm
  case absent =>
    rintro g (rfl | hg)
    · exact fun r hr => fresh r ((h.rows r).2 (Or.inl hr))
    · exact h.absent g hg
  case nonzero =>
    rintro g (rfl | hg)
    · exact hzero
    · exact h.nonzero g hg
  case below =>
    rintro g (rfl | hg)
    · exact hbelow
    · exact h.below g hg
  case sequence =>
    -- the id is below a row, so it is remembered already
    obtain ⟨r, hr, hlt⟩ := hbelow
    have hle := ha.id_le hr
    show max (b.sequence.getD 0) id = a.sequence.getD 0
    rw [h.sequence]
    omega

/-- Some more ids are claimed, one after the other. -/
theorem fills (h : a.Padded b gaps) (ha : a.Sound) {ids : List Int} {filled : Log}
    (hids : ∀ id ∈ ids, id ≠ 0 ∧ ∃ r ∈ a.rows, id < r.id)
    (hfill : ids.foldlM Store.fill b = .ok filled) :
    a.Padded filled (gaps ∪ {id | id ∈ ids}) := by
  induction ids generalizing b gaps with
  | nil =>
    obtain rfl := Except.ok.inj hfill
    simpa using h
  | cons id ids ih =>
    obtain ⟨hzero, hbelow⟩ := hids id List.mem_cons_self
    rw [List.foldlM_cons] at hfill
    rcases hfirst : Store.fill b id with e | next
    · rw [hfirst] at hfill
      cases hfill
    · rw [hfirst] at hfill
      have hrest :=
        ih (h.fill ha hzero hbelow hfirst) (fun g hg => hids g (List.mem_cons_of_mem id hg)) hfill
      have hgaps : Insert.insert id gaps ∪ {g | g ∈ ids} = gaps ∪ {g | g ∈ id :: ids} := by
        ext g
        simp [or_assoc, or_left_comm]
      rwa [hgaps] at hrest

/-! ## Compaction -/

/-- Compaction takes a row away from both logs or from none. -/
theorem forgets_eq (h : a.Padded b gaps) {e : Entry} (he : e ∈ a.entries) :
    b.forgets revision e = a.forgets revision e := by
  rw [Bool.eq_iff_iff, forgets_iff, forgets_iff]
  refine or_congr_left ?_
  constructor
  · rintro ⟨f, hf, hle, hne, hlink⟩
    rcases h.mem_entries.1 hf with hf | ⟨id, hid, rfl⟩
    · exact ⟨f, hf, hle, hne, hlink⟩
    · -- a placeholder follows itself, and no row of the first log is there
      rw [toEntry_gapRow] at hlink
      exact absurd (hlink ▸ hid) (h.not_mem_of_entry he)
  · rintro ⟨f, hf, hle, hne, hlink⟩
    exact ⟨f, h.mem_entries.2 (Or.inl hf), hle, hne, hlink⟩

/-- Compaction takes a placeholder away exactly if it is not above the revision. -/
theorem forgets_gapRow (h : b.Tidy) {id : Int} :
    b.forgets revision (gapRow id).toEntry = decide (id ≤ revision) := by
  rw [Bool.eq_iff_iff, decide_eq_true_iff]
  constructor
  · exact h.le_of_forgets
  · exact fun hle => forgets_iff.2 (Or.inr ⟨hle, by rw [toEntry_gapRow]⟩)

/-- **Compaction comes to the same.** It takes the placeholders away up to its revision, and of the
other rows the same from both logs. -/
theorem compact (h : a.Padded b gaps) (ha : a.Tidy) :
    (a.compact revision).2.Padded (b.compact revision).2 {id ∈ gaps | revision < id} := by
  have hb := h.tidy ha
  refine
    { rows := ?rows
      absent := fun id hid r hr => h.absent id hid.1 r (ha.mem_rows_compact_iff.1 hr).1
      nonzero := fun id hid => h.nonzero id hid.1
      below := ?below
      sequence := h.sequence
      watermark := congrArg (fun watermark => some (raised watermark revision)) h.watermark
      indexing := h.indexing }
  case rows =>
    intro r
    rw [hb.mem_rows_compact_iff, ha.mem_rows_compact_iff, h.rows]
    constructor
    · rintro ⟨hr | ⟨id, hid, rfl⟩, hkept⟩
      · exact Or.inl ⟨hr, by rwa [← h.forgets_eq (List.mem_map_of_mem hr)]⟩
      · rw [forgets_gapRow hb, decide_eq_false_iff_not, Int.not_le] at hkept
        exact Or.inr ⟨id, ⟨hid, hkept⟩, rfl⟩
    · rintro (⟨hr, hkept⟩ | ⟨id, ⟨hid, habove⟩, rfl⟩)
      · exact ⟨Or.inl hr, by rwa [h.forgets_eq (List.mem_map_of_mem hr)]⟩
      · exact ⟨Or.inr ⟨id, hid, rfl⟩, by simpa [forgets_gapRow hb] using habove⟩
  case below =>
    rintro id ⟨hid, habove⟩
    obtain ⟨r, hr, hlt⟩ := h.below id hid
    exact ⟨r, ha.mem_rows_compact_iff.2 ⟨hr, ha.forgets_of_lt (Int.lt_trans habove hlt)⟩, hlt⟩

end Padded

/-! ## Runs -/

/-- **Placeholders are not seen.** In a state that a run reaches, ids other than zero that have no
row are claimed below the greatest one. Whatever clients then write and read, they are answered as
if nothing had been claimed, and a compaction that takes effect leaves the same rows as without the
claims and the placeholders above its revision. -/
theorem Start.fill_unseen {log : Log} (h : log.Start) (ops : List Op) {ids : List Int}
    {filled : Log} (hids : ∀ id ∈ ids, id ≠ 0 ∧ ∃ r ∈ (log.play ops).rows, id < r.id)
    (hfill : ids.foldlM Store.fill (log.play ops) = .ok filled) {asks : List Ask}
    (hasks : ∀ ask ∈ asks, ask.isCompact = false) :
    ((log.play ops).exchanges asks).map Exchange.answer =
      (filled.exchanges asks).map Exchange.answer ∧
      ((log.play ops).asked asks).Padded (filled.asked asks) {id | id ∈ ids} ∧
      ∀ revision watermark current, Store.compactedTo ((log.play ops).asked asks) = .ok watermark →
        Store.currentRevision ((log.play ops).asked asks) = .ok current → watermark < revision →
          revision ≤ current →
          ∃ m n a b, (Op.compact revision).perform ((log.play ops).asked asks) = (.ok m, a) ∧
            (Op.compact revision).perform (filled.asked asks) = (.ok n, b) ∧
            (∀ r ∈ a.rows, r ∈ ((log.play ops).asked asks).rows) ∧
            a.Padded b {id | id ∈ ids ∧ revision < id} := by
  have hintact := h.intact.play ops
  have hpadded := (padded_refl (log.play ops)).fills hintact.toSound hids hfill
  rw [Set.empty_union] at hpadded
  obtain ⟨hanswers, hasked, hafter⟩ := hpadded.exchanges hintact hasks
  refine ⟨hanswers, hasked, ?_⟩
  intro revision watermark current hwatermark hcurrent habove hle
  have htidy := hafter.toTidy
  obtain rfl : watermark = _ := Except.ok.inj (hwatermark.symm.trans htidy.store_compactedTo)
  obtain rfl : current = _ := Except.ok.inj (hcurrent.symm.trans htidy.store_currentRevision)
  have hleft := htidy.compact_eq revision
  have hright := (hasked.tidy htidy).compact_eq revision
  rw [hasked.current_eq, hasked.floor_eq] at hright
  rw [if_neg (Int.not_lt.2 hle), if_neg (Int.not_le.2 habove)] at hleft hright
  refine ⟨_, _, _, _, by rw [Op.perform, Op.on, hleft]; rfl, by rw [Op.perform, Op.on, hright]; rfl,
    ?_, hasked.compact htidy⟩
  exact fun r hr => (htidy.mem_rows_compact_iff.1 hr).1

/-- Ids are claimed around keys that have the names of their placeholders, one of them before the
first row. A key that has the name of a placeholder is created as if it were not there, and a
compaction leaves the same rows. -/
theorem Start.exists_fill_unseen : ∃ (log : Log) (ops : List Op) (ids : List Int) (filled a b : Log)
    (asks : List Ask),
    log.Start ∧ ids = [3, -1, 2] ∧
    ops = [.create "gap-3" [1] 0, .fill 5 (by decide), .update "gap-3" [2] 1 0] ∧
    asks = [.request (.create "gap-2" [3] 0), .request (.delete "gap-3" 3),
      .request (.update "gap-3" [4] 6 0), .count "gap-" 0, .get "gap-2" 7] ∧
    (∀ id ∈ ids, id ≠ 0 ∧ ∃ r ∈ (log.play ops).rows, id < r.id) ∧
    ids.foldlM Store.fill (log.play ops) = .ok filled ∧ (∀ ask ∈ asks, ask.isCompact = false) ∧
    (filled.exchanges asks).map Exchange.answer =
      [.number (.ok 7), .number (.error .keyExists), .number (.ok 8),
        .counted (.ok (8, 2)), .entry (.ok (some ⟨7, "gap-2", true, false, 7, 0, 0, [3], []⟩))] ∧
    (∀ r, r ∈ (filled.asked asks).rows ↔
      r ∈ ((log.play ops).asked asks).rows ∨ r = gapRow 3 ∨ r = gapRow (-1) ∨ r = gapRow 2) ∧
    (Op.compact 2).perform ((log.play ops).asked asks) = (.ok 0, a) ∧
    (Op.compact 2).perform (filled.asked asks) = (.ok 2, b) ∧
    a.rows.map Row.id = [1, 5, 6, 7, 8] ∧ ∀ r, r ∈ b.rows ↔ r ∈ a.rows ∨ r = gapRow 3 := by
  let log : Log := { indexing := .linkFirst }
  let ops : List Op := [.create "gap-3" [1] 0, .fill 5 (by decide), .update "gap-3" [2] 1 0]
  let ids : List Int := [3, -1, 2]
  let asks : List Ask := [.request (.create "gap-2" [3] 0), .request (.delete "gap-3" 3),
    .request (.update "gap-3" [4] 6 0), .count "gap-" 0, .get "gap-2" 7]
  have hids : ∀ id ∈ ids, id ≠ 0 ∧ ∃ r ∈ (log.play ops).rows, id < r.id := by decide +kernel
  have hasks : ∀ ask ∈ asks, ask.isCompact = false := by decide
  have hcompacts : (ids.foldlM Store.fill (log.play ops)).map
      (fun filled => ((Op.compact 2).perform (filled.asked asks)).1) = .ok (.ok 2) := by
    decide +kernel
  rcases hfill : ids.foldlM Store.fill (log.play ops) with e | filled <;> rw [hfill] at hcompacts
  · cases hcompacts
  have hstart : log.Start := .empty
  obtain ⟨hanswers, hasked, hcompact⟩ := hstart.fill_unseen ops hids hfill hasks
  obtain ⟨m, n, a, b, ha, hb, -, hleft⟩ :=
    hcompact 2 0 8 (by decide +kernel) (by decide +kernel) (by decide) (by decide)
  have hplain : ((Op.compact 2).perform ((log.play ops).asked asks)).1 = .ok 0 := by decide +kernel
  have hrows : ((Op.compact 2).perform ((log.play ops).asked asks)).2.rows.map Row.id =
      [1, 5, 6, 7, 8] := by decide +kernel
  rw [ha] at hplain hrows
  obtain rfl : m = 0 := Except.ok.inj hplain
  obtain rfl : n = 2 := by
    have hpadded : ((Op.compact 2).perform (filled.asked asks)).1 = .ok 2 := Except.ok.inj hcompacts
    rw [hb] at hpadded
    exact Except.ok.inj hpadded
  refine ⟨log, ops, ids, filled, a, b, asks, hstart, rfl, rfl, rfl, hids, hfill, hasks, ?_, ?_, ha,
    hb, hrows, ?_⟩
  · exact hanswers.symm.trans (by decide +kernel)
  · intro r
    refine (hasked.rows r).trans ?_
    simp [ids]
  · intro r
    refine (hleft.rows r).trans ?_
    refine or_congr_right ⟨?_, fun hr => ⟨3, ⟨by decide, by decide⟩, hr⟩⟩
    rintro ⟨id, ⟨hid, hlt⟩, rfl⟩
    simp only [ids, List.mem_cons, List.not_mem_nil, or_false] at hid
    rcases hid with rfl | rfl | rfl
    · rfl
    · cases hlt
    · cases hlt

/-- **A placeholder at zero is seen.** It has the link of the first state of a key with its name, so
the key cannot be created, as it could without the placeholder. -/
theorem exists_fill_seen :
    ∃ log filled : Log, log = play { indexing := .linkFirst } [.create "a" [] 0] ∧
    Store.fill log 0 = .ok filled ∧ (∀ r ∈ log.rows, r.id ≠ 0) ∧ (∃ r ∈ log.rows, 0 < r.id) ∧
    ((Op.create "gap-0" [] 0).perform log).1 = .ok 2 ∧
    ((Op.create "gap-0" [] 0).perform filled).1 = .error .keyExists := by
  let log := play { indexing := .linkFirst } [.create "a" [] 0]
  have hseen : (Store.fill log 0).map (fun filled => ((Op.create "gap-0" [] 0).perform filled).1) =
      .ok (.error .keyExists) := by decide +kernel
  rcases hfill : Store.fill log 0 with e | filled
  · rw [hfill] at hseen
    cases hseen
  · rw [hfill] at hseen
    exact ⟨log, filled, rfl, hfill, by decide +kernel, by decide +kernel, by decide +kernel,
      Except.ok.inj hseen⟩

end Log

end RevisionLog
