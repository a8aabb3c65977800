import RevisionLog.Proofs.Padding
import RevisionLog.Proofs.Tracking

/-!
# Passing missing ids

An id that is missing below a greater one holds a watcher up until a placeholder claims it. A
watcher takes the refusal of a placeholder as a sign that a row has come to stand there. But a
placeholder is refused for its link too: it follows its own id, under a name that users may have.
Where a row of that name follows the missing id, nothing will ever stand there, and no watcher
passes it. A log to which nobody but the store writes has no such row.

* `Log.ReadableFrom` — a log that a watcher can read from a position on.
* `Log.IsBarred` — a row keeps every placeholder away from an id; `Log.Sound.not_isBarred` — none
  that a store wrote does.
* `Watcher.alone` — how a watcher reaches a file that nobody else uses.
* `Log.ReadableFrom.fetch`, `poll`, `polls` — a watcher that is alone never fails and never goes
  back.
* `Watcher.Held` — the next id of a watcher is missing below a greater one.
* `Watcher.Held.passes` — two polls take a watcher past the id, unless it is barred: then none ever
  do.
-/

namespace RevisionLog

open Store

/-! ## Rows that can be read -/

/-- A reading in two steps went well if both of them did. -/
theorem of_bind_eq_ok {ε α β : Type} {x : Except ε α} {f : α → Except ε β} {b : β}
    (h : (x >>= f) = .ok b) : ∃ a, x = .ok a ∧ f a = .ok b := by
  rcases x with e | a
  · cases h
  · exact ⟨a, rfl, h⟩

namespace Row

theorem readText_eq_ok {index : Nat} {column : String} {c : Cell} {s : String}
    (h : readText index column c = .ok s) : c = .text s := by
  cases c <;> cases h
  rfl

theorem readIntOrZero_eq_ok {index : Nat} {column : String} {c : Cell} {n : Int}
    (h : readIntOrZero index column c = .ok n) : c = .null ∨ c = .integer n := by
  cases c <;> cases h
  · exact Or.inl rfl
  · exact Or.inr rfl

/-- A row that can be read holds text in its name, and an integer or nothing in its link. -/
theorem of_entry_eq_ok {r : Row} {e : Entry} (h : r.entry = .ok e) :
    e.revision = r.id ∧ r.name = .text e.name ∧
    (r.prevRevision = .null ∨ r.prevRevision = .integer e.prevRevision) := by
  unfold Row.entry at h
  obtain ⟨created, -, h⟩ := of_bind_eq_ok h
  -- the rest is read alike, whichever revision is that of the beginning
  dsimp only at h
  split at h
  all_goals
    obtain ⟨createRevision, -, h⟩ := of_bind_eq_ok h
    obtain ⟨name, hname, h⟩ := of_bind_eq_ok h
    obtain ⟨deleted, -, h⟩ := of_bind_eq_ok h
    obtain ⟨prevRevision, hprev, h⟩ := of_bind_eq_ok h
    obtain ⟨lease, -, h⟩ := of_bind_eq_ok h
    cases h
    exact ⟨rfl, readText_eq_ok hname, readIntOrZero_eq_ok hprev⟩

/-- A row that can be read has the link of a placeholder if it follows the id under the name of the
placeholder. -/
theorem sameLink_gapRow_iff {r : Row} (h : ∃ e, r.entry = .ok e) (id : Int) :
    (gapRow id).sameLink r = true ↔
      r.name = .text (Draft.gapStart ++ toString id) ∧ r.prevRevision = .integer id := by
  obtain ⟨e, he⟩ := h
  obtain ⟨-, hname, hprev⟩ := of_entry_eq_ok he
  have hsame : (gapRow id).sameLink r =
      (((Cell.integer id).equals r.prevRevision).holds &&
        ((Cell.text (Draft.gapStart ++ toString id)).equals r.name).holds) := Truth.holds_and _ _
  rw [hsame, Bool.and_eq_true, and_comm, hname, Cell.equals_text, Truth.holds_some,
    decide_eq_true_iff, Cell.text.injEq, eq_comm]
  refine and_congr_right fun _ => ?_
  rcases hprev with hprev | hprev <;> rw [hprev]
  · simp [Cell.equals]
  · rw [Cell.equals_integer, Truth.holds_some, decide_eq_true_iff, Cell.integer.injEq, eq_comm]

end Row

namespace Log

variable {log log' : Log} {id position position' : Int}

/-- Rows that can be read are read one by one. -/
theorem exists_mapM_entry {rows : List Row} (h : ∀ r ∈ rows, ∃ e, r.entry = .ok e) :
    ∃ es, rows.mapM Row.entry = .ok es ∧ es.map Entry.revision = rows.map Row.id := by
  induction rows with
  | nil => exact ⟨[], rfl, rfl⟩
  | cons r rows ih =>
    obtain ⟨e, he⟩ := h r List.mem_cons_self
    obtain ⟨es, hes, hrevisions⟩ := ih fun s hs => h s (List.mem_cons_of_mem r hs)
    refine ⟨e :: es, ?_, ?_⟩
    · rw [List.mapM_cons, he, hes]
      rfl
    · rw [List.map_cons, List.map_cons, hrevisions, (Row.of_entry_eq_ok he).1]

/-- A log that a watcher can read from a position on: every row can be read, and no history above
the position is gone. -/
structure ReadableFrom (log : Log) (position : Int) : Prop where
  rows : ∀ r ∈ log.rows, ∃ e, r.entry = .ok e
  watermark : ∃ watermark, Store.compactedTo log = .ok watermark ∧ watermark ≤ position

namespace ReadableFrom

theorem mono (h : log.ReadableFrom position) (hle : position ≤ position') :
    log.ReadableFrom position' where
  rows := h.rows
  watermark := by
    obtain ⟨watermark, hread, hbelow⟩ := h.watermark
    exact ⟨watermark, hread, Int.le_trans hbelow hle⟩

theorem fill (h : log.ReadableFrom position) (hfill : Store.fill log id = .ok log') :
    log'.ReadableFrom position := by
  obtain ⟨-, fresh, rfl⟩ := fill_eq_ok (ask_eq_ok.1 hfill)
  exact ⟨forall_rows_put ⟨_, (isPlain_gapRow id).entry_eq⟩ h.rows, h.watermark⟩

/-- A read answers the first rows above its position, in order. -/
theorem exists_since (h : log.ReadableFrom position) (batch : Nat) :
    ∃ es, Store.since log position batch = .ok es ∧
      es.map Entry.revision =
        (if (batch : Int) ≤ Revision.greatest then (log.rows.filter (position < ·.id)).take batch
          else log.rows.filter (position < ·.id)).map Row.id := by
  obtain ⟨watermark, hread, hle⟩ := h.watermark
  have hsince : Store.since log position batch = ask (log.after position batch) := by
    rw [Store.since, hread]
    simp only [bind, Except.bind]
    rw [if_neg (Int.not_lt.2 hle)]
  rw [hsince, after]
  generalize hrows : (if (batch : Int) ≤ Revision.greatest then
    (log.rows.filter (position < ·.id)).take batch else log.rows.filter (position < ·.id)) = rows
  have hmem : ∀ r ∈ rows, r ∈ log.rows := by
    intro r hr
    rw [← hrows] at hr
    split at hr
    · exact (List.mem_filter.1 (List.mem_of_mem_take hr)).1
    · exact (List.mem_filter.1 hr).1
  obtain ⟨es, hes, hrevisions⟩ := exists_mapM_entry fun r hr => h.rows r (hmem r hr)
  exact ⟨es, ask_eq_ok.2 hes, hrevisions⟩

/-- A read begins with the least id above its position. -/
theorem exists_since_cons (h : log.ReadableFrom position) {batch : Nat} (hbatch : 0 < batch)
    {r : Row} (hr : r ∈ log.rows) (hlt : position < r.id) :
    ∃ e es, Store.since log position batch = .ok (e :: es) ∧ position < e.revision ∧
      (∃ s ∈ log.rows, s.id = e.revision) ∧ ∀ s ∈ log.rows, position < s.id →
        e.revision ≤ s.id := by
  obtain ⟨es, hsince, hrevisions⟩ := h.exists_since batch
  have hordered := log.ordered.filter (position < ·.id)
  have hfilter : ∀ s, s ∈ log.rows.filter (position < ·.id) ↔ s ∈ log.rows ∧ position < s.id := by
    intro s
    rw [List.mem_filter, decide_eq_true_iff]
  rcases habove : log.rows.filter (position < ·.id) with _ | ⟨first, rest⟩
  · have hnone := (hfilter r).2 ⟨hr, hlt⟩
    rw [habove] at hnone
    cases hnone
  · rw [habove] at hordered hfilter hrevisions
    obtain ⟨hfirst, -⟩ := List.pairwise_cons.1 hordered
    obtain ⟨hmem, habove⟩ := (hfilter first).1 List.mem_cons_self
    -- at least one row is read, as the batch is not empty
    have hcons : ∃ rest', es.map Entry.revision = first.id :: rest' := by
      rw [hrevisions]
      split
      · obtain ⟨n, rfl⟩ := Nat.exists_eq_succ_of_ne_zero (Nat.ne_of_gt hbatch)
        exact ⟨_, rfl⟩
      · exact ⟨_, rfl⟩
    obtain ⟨rest', hcons⟩ := hcons
    obtain ⟨e, es', rfl, hrev, -⟩ := List.map_eq_cons_iff.1 hcons
    refine ⟨e, es', hsince, hrev ▸ habove, ⟨first, hmem, hrev.symm⟩, ?_⟩
    intro s hs hlt
    rw [hrev]
    rcases List.mem_cons.1 ((hfilter s).2 ⟨hs, hlt⟩) with rfl | hs
    · exact Int.le_refl _
    · exact Int.le_of_lt (hfirst s hs)

end ReadableFrom

/-! ## Placeholders that are refused -/

/-- A row keeps every placeholder away from an id: it already follows the id under the name of the
placeholder. -/
def IsBarred (log : Log) (id : Int) : Prop :=
  ∃ r ∈ log.rows, r.name = .text (Draft.gapStart ++ toString id) ∧ r.prevRevision = .integer id

instance (log : Log) (id : Int) : Decidable (log.IsBarred id) :=
  inferInstanceAs (Decidable (∃ r ∈ log.rows, _))

/-- A claim is in order, or it is refused as lost to another writer. -/
theorem fill_cases (log : Log) (id : Int) :
    (∃ log', Store.fill log id = .ok log') ∨ Store.fill log id = .error .keyExists := by
  have hid : log.idOf (.placeholder id) = .ok id := rfl
  have hmissing : (Draft.placeholder id).missing? = none := rfl
  simp only [Store.fill, Log.fill, insert, hid, hmissing]
  split
  · split
    · next hclash =>
      obtain ⟨columns, rfl⟩ := exists_takenLink hclash
      exact Or.inr rfl
    · exact Or.inl ⟨_, rfl⟩
  · exact Or.inr rfl

theorem fill_of_isBarred (hindexed : log.indexing ≠ .unindexed)
    (habsent : ∀ r ∈ log.rows, r.id ≠ id) (h : log.IsBarred id) :
    Store.fill log id = .error .keyExists := by
  obtain ⟨r, hr, hname, hprev⟩ := h
  have hlink : (gapRow id).sameLink r = true := by
    simp [Row.sameLink, gapRow, Draft.toRow, Draft.placeholder, hname, hprev]
  obtain ⟨columns, hclash⟩ := linkClash?_of_mem hindexed hr hlink
  have hinsert : log.insert (.placeholder id) = _ := insert_of_clash rfl rfl habsent hclash
  rw [Store.fill, Log.fill, hinsert]
  rfl

theorem fill_of_not_isBarred (hread : ∀ r ∈ log.rows, ∃ e, r.entry = .ok e)
    (habsent : ∀ r ∈ log.rows, r.id ≠ id) (h : ¬log.IsBarred id) :
    Store.fill log id = .ok (log.put (gapRow id) habsent) := by
  have hfree : ∀ s ∈ log.rows, (gapRow id).sameLink s = false := by
    intro s hs
    by_contra hlink
    exact h ⟨s, hs, (Row.sameLink_gapRow_iff (hread s hs) id).1 (eq_true_of_ne_false hlink)⟩
  exact ask_eq_ok.2 (fill_of_free habsent hfree)

/-- A state that follows a revision above the floor follows a row. -/
theorem Sound.exists_prior (h : log.Sound) {e : Entry} (he : e ∈ log.entries)
    (hgap : e.isGap = false) (habove : log.floor < e.prevRevision) :
    ∃ p ∈ log.entries, p.revision = e.prevRevision := by
  obtain ⟨front, back, hchain⟩ := List.append_of_mem (mem_chain.2 ⟨he, rfl, hgap⟩)
  rcases List.eq_nil_or_concat front with rfl | ⟨front, p, rfl⟩
  · -- it is the first state that is left
    have hfloor := h.floor_nonneg
    rcases h.dangling e.name e (by rw [hchain]; rfl) with hzero | ⟨hbelow, -⟩
    · omega
    · omega
  · have hp : p ∈ log.chain e.name := by rw [hchain]; simp
    have hprecedes : p.Precedes e := by
      have hchained := h.chained e.name
      rw [hchain, List.concat_eq_append, List.append_assoc] at hchained
      exact (List.isChain_append.1 hchained).2.1.rel
    exact ⟨p, (mem_chain.1 hp).1, hprecedes.link.symm⟩

/-- **No row of a store bars an id** that is missing above the floor. -/
theorem Sound.not_isBarred (h : log.Sound) (habove : log.floor < id)
    (habsent : ∀ r ∈ log.rows, r.id ≠ id) : ¬log.IsBarred id := by
  rintro ⟨r, hr, -, hprev⟩
  have he : r.toEntry ∈ log.entries := List.mem_map_of_mem hr
  have hlink : r.toEntry.prevRevision = id := by rw [Row.toEntry, hprev, Cell.toInt]
  rcases hgap : r.toEntry.isGap with _ | _
  · obtain ⟨p, hp, hrev⟩ := h.exists_prior he hgap (hlink ▸ habove)
    obtain ⟨s, hs, rfl⟩ := mem_entries.1 hp
    exact habsent s hs (hrev.trans hlink)
  · exact habsent r hr ((h.placeholder _ he hgap).symm.trans hlink)

end Log

/-! ## A watcher that is alone -/

namespace Watcher

/-- How a watcher reaches a file that nobody else uses, with nothing that disturbs its
transactions. -/
def alone (batch : Nat) : Source (StateM Database) where
  read position :=
    Transaction.run {} (.ok ()) (.ok ()) (.ok ())
      (Work.askLog (Store.since · position batch) metaTable)
  claim id := Transaction.run {} (.ok ()) (.ok ()) (.ok ()) (Work.fill id)

/-- So many polls, one after the other. -/
def polls {m : Type → Type} [Monad m] (source : Source m) (fuel : Nat) :
    (n : Nat) → Watcher → m (List (Except Error (List Entry)) × Watcher)
  | 0, w => pure ([], w)
  | n + 1, w => do
    let (answer, w) ← poll source fuel w
    let (answers, w) ← polls source fuel n w
    return (answer :: answers, w)

variable {log log' : Log} {db : Database} {w : Watcher} {batch : Nat}

theorem read_alone {position : Int} {es : List Entry} (hdb : db.log = some log)
    (hsince : Store.since log position batch = .ok es) :
    (alone batch).read position db = (.ok es, db) := by
  have hwork : (Work.askLog (Store.since · position batch) metaTable).carryOut db = (.ok es, db) :=
    Work.carryOut_askLog hdb hsince
  exact Work.run_of_ok hwork

theorem claim_alone_of_ok {id : Int} (hdb : db.log = some log)
    (hfill : Store.fill log id = .ok log') :
    (alone batch).claim id db = (.ok (), { db with log := some log' }) := by
  have hop : (fun log => ((), log)) <$> Store.fill log id = .ok ((), log') := by rw [hfill]; rfl
  exact Work.run_of_ok (Work.carryOut_onLog_of_ok hdb hop)

theorem claim_alone_of_error {id : Int} {e : Error} (hdb : db.log = some log)
    (hfill : Store.fill log id = .error e) : (alone batch).claim id db = (.error e, db) := by
  have hop : (fun log => ((), log)) <$> Store.fill log id = .error e := by rw [hfill]; rfl
  exact Work.run_of_error (Work.carryOut_onLog_of_error hdb hop)

theorem polls_succ {σ : Type} (source : Source (StateM σ)) (fuel n : Nat) (w : Watcher) (s : σ) :
    polls source fuel (n + 1) w s =
      match poll source fuel w s with
      | ((answer, w), s) =>
        match polls source fuel n w s with
        | ((answers, w), s) => ((answer :: answers, w), s) := rfl

/-- A read takes a watcher as far as its rows follow each other. -/
theorem position_judge (w : Watcher) (rows : List Entry) :
    (w.judge rows).2.position = (absorb w.position rows).1 := by
  rw [judge]
  rcases absorb w.position rows with ⟨reached, batch, _ | id⟩ <;> dsimp only <;> split <;> rfl

theorem le_absorb (position : Int) (rows : List Entry) : position ≤ (absorb position rows).1 := by
  rcases habsorb : absorb position rows with ⟨reached, batch, missing⟩
  obtain ⟨es, -, htrail, -⟩ := exists_trail_of_absorb habsorb
  exact htrail.le

/-- A read never takes a watcher back. -/
theorem le_judge (w : Watcher) (rows : List Entry) : w.position ≤ (w.judge rows).2.position := by
  rw [position_judge]
  exact le_absorb w.position rows

/-- A read that begins with the next row takes a watcher there. -/
theorem lt_judge_cons {e : Entry} (hnext : e.revision = w.position + 1) (es : List Entry) :
    w.position < (w.judge (e :: es)).2.position := by
  have hle := le_absorb e.revision es
  rw [position_judge, absorb, if_neg (not_not.2 hnext)]
  dsimp only
  omega

/-- A read that begins past the next id tells that the id is missing. -/
theorem judge_cons_of_ne {e : Entry} (hgap : e.revision ≠ w.position + 1) (es : List Entry) :
    w.judge (e :: es) =
      if w.suspect = some (w.position + 1) then
        (.claim (w.position + 1), { w with suspect := none })
      else (.deliver [], { w with suspect := some (w.position + 1) }) := by
  rw [judge, absorb, if_pos hgap]
  simp

/-- A pull went well: the watcher is at or past a position, and can read on from where it is. -/
structure EndsWell (position : Int) (outcome : (Except Error (List Entry) × Watcher) × Database) :
    Prop where
  ok : ∃ batch, outcome.1.1 = .ok batch
  le : position ≤ outcome.1.2.position
  readable : ∃ log, outcome.2.log = some log ∧ log.ReadableFrom outcome.1.2.position

theorem EndsWell.mono {position position' : Int}
    {outcome : (Except Error (List Entry) × Watcher) × Database} (h : EndsWell position' outcome)
    (hle : position ≤ position') : EndsWell position outcome :=
  ⟨h.ok, Int.le_trans hle h.le, h.readable⟩

/-- A poll goes as well as its fetch. -/
theorem EndsWell.poll {position : Int} {source : Source (StateM Database)} {fuel : Nat}
    (hpending : w.pending = []) (hopen : w.done = false)
    (h : EndsWell position (fetch source fuel w db)) :
    EndsWell position (poll source fuel w db) := by
  rw [poll_eq, hpending, hopen]
  rcases hfetch : fetch source fuel w db with ⟨⟨outcome, w'⟩, db'⟩
  rw [hfetch] at h
  obtain ⟨⟨es, rfl⟩, hle, hreadable⟩ := h
  exact ⟨⟨es, rfl⟩, hle, hreadable⟩

/-- A poll that goes well is followed by others, if they do. -/
theorem EndsWell.polls_succ {position : Int} {fuel n : Nat}
    (h : EndsWell position (Watcher.poll (alone batch) fuel w db))
    (hrest : ∀ {w : Watcher} {log : Log} {db : Database}, log.ReadableFrom w.position →
      db.log = some log →
      (∀ answer ∈ (polls (alone batch) fuel n w db).1.1, ∃ es, answer = .ok es) ∧
        w.position ≤ (polls (alone batch) fuel n w db).1.2.position) :
    (∀ answer ∈ (polls (alone batch) fuel (n + 1) w db).1.1, ∃ es, answer = .ok es) ∧
      position ≤ (polls (alone batch) fuel (n + 1) w db).1.2.position := by
  obtain ⟨hok, hle, log', hdb', hreadable⟩ := h
  obtain ⟨hanswers, hle'⟩ := hrest hreadable hdb'
  rw [Watcher.polls_succ]
  exact ⟨List.forall_mem_cons.2 ⟨hok, hanswers⟩, Int.le_trans hle hle'⟩

end Watcher

open Watcher

namespace Log.ReadableFrom

variable {log : Log} {db : Database} {w : Watcher} {batch fuel : Nat} {position : Int}

/-- A claim is settled in any case, and the log can still be read. -/
theorem claim (h : log.ReadableFrom position) (hdb : db.log = some log) (batch : Nat) (id : Int) :
    ∃ answer db' log', (alone batch).claim id db = (answer, db') ∧ settled answer = none ∧
      db'.log = some log' ∧ log'.ReadableFrom position := by
  rcases log.fill_cases id with ⟨log', hfill⟩ | hfill
  · exact ⟨_, _, log', claim_alone_of_ok hdb hfill, rfl, rfl, h.fill hfill⟩
  · exact ⟨_, _, log, claim_alone_of_error hdb hfill, rfl, hdb, h⟩

/-- A fetch goes at least as far as its first read, if the rest of it goes well. -/
theorem fetch_of_judge (h : log.ReadableFrom w.position) (hdb : db.log = some log)
    {rows : List Entry} (hsince : Store.since log w.position batch = .ok rows)
    (hrest : ∀ {w : Watcher} {log : Log} {db : Database}, log.ReadableFrom w.position →
      db.log = some log → EndsWell w.position (Watcher.fetch (alone batch) fuel w db)) :
    EndsWell (w.judge rows).2.position (Watcher.fetch (alone batch) (fuel + 1) w db) := by
  rw [fetch_succ, read_alone hdb hsince]
  dsimp only
  have hle := w.le_judge rows
  rcases hjudge : w.judge rows with ⟨verdict, moved⟩
  rw [hjudge] at hle
  have hmoved := h.mono hle
  rcases verdict with delivered | _ | id <;> dsimp only
  · exact ⟨⟨delivered, rfl⟩, Int.le_refl _, log, hdb, hmoved⟩
  · exact hrest hmoved hdb
  · obtain ⟨answer, db', log', hclaim, hsettled, hdb', hmoved'⟩ := hmoved.claim hdb batch id
    rw [hclaim]
    dsimp only
    rw [hsettled]
    exact hrest hmoved' hdb'

/-- **A fetch of a watcher that is alone never fails and never takes it back.** -/
theorem fetch (h : log.ReadableFrom w.position) (hdb : db.log = some log) (batch fuel : Nat) :
    EndsWell w.position (Watcher.fetch (alone batch) fuel w db) := by
  induction fuel generalizing w log db with
  | zero => exact ⟨⟨[], rfl⟩, Int.le_refl _, log, hdb, h⟩
  | succ fuel ih =>
    obtain ⟨rows, hsince, -⟩ := h.exists_since batch
    exact (h.fetch_of_judge hdb hsince ih).mono (w.le_judge rows)

/-- A fetch goes past the next id, if a row stands there. -/
theorem fetch_of_mem (h : log.ReadableFrom w.position) (hdb : db.log = some log)
    (hbatch : 0 < batch) (fuel : Nat) {r : Row} (hr : r ∈ log.rows) (hid : r.id = w.position + 1) :
    EndsWell (w.position + 1) (Watcher.fetch (alone batch) (fuel + 1) w db) := by
  obtain ⟨e, es, hsince, habove, -, hleast⟩ := h.exists_since_cons hbatch hr (by omega)
  have hfirst : e.revision = w.position + 1 := by
    have := hleast r hr (by omega)
    omega
  exact (h.fetch_of_judge hdb hsince fun h hdb => h.fetch hdb batch fuel).mono
    (lt_judge_cons hfirst es)

/-- **A poll of a watcher that is alone never fails and never takes it back.** -/
theorem poll (h : log.ReadableFrom w.position) (hdb : db.log = some log) (batch fuel : Nat) :
    EndsWell w.position (Watcher.poll (alone batch) fuel w db) := by
  by_cases hpending : w.pending = []
  · rcases hdone : w.done with _ | _
    · exact (h.fetch hdb batch fuel).poll hpending hdone
    · rw [poll_eq, hpending, hdone]
      exact ⟨⟨[], rfl⟩, Int.le_refl _, log, hdb, h⟩
  · rw [poll_eq, if_pos (by simpa using hpending)]
    exact ⟨⟨w.pending, rfl⟩, Int.le_refl _, log, hdb, h⟩

/-- However often a watcher that is alone polls, no poll fails or takes it back. -/
theorem polls (h : log.ReadableFrom w.position) (hdb : db.log = some log) (batch fuel n : Nat) :
    (∀ answer ∈ (polls (alone batch) fuel n w db).1.1, ∃ es, answer = .ok es) ∧
      w.position ≤ (Watcher.polls (alone batch) fuel n w db).1.2.position := by
  induction n generalizing w log db with
  | zero => exact ⟨fun answer hanswer => (by cases hanswer), Int.le_refl _⟩
  | succ n ih => exact (h.poll hdb batch fuel).polls_succ ih

end Log.ReadableFrom

/-! ## A watcher that is held up -/

namespace Watcher

/-- A watcher that goes on has handed out all that it read, and the next id is missing below a
greater one. -/
structure Held (w : Watcher) (log : Log) : Prop where
  readable : log.ReadableFrom w.position
  missing : ∀ r ∈ log.rows, r.id ≠ w.position + 1
  greater : ∃ r ∈ log.rows, w.position + 1 < r.id
  pending : w.pending = []
  goesOn : w.done = false

/-- The watcher after a poll that handed out nothing and saw that the next id is missing. -/
def wary (w : Watcher) : Watcher :=
  { w with cursor := w.position, suspect := some (w.position + 1) }

namespace Held

variable {log : Log} {db : Database} {w : Watcher} {batch : Nat}

theorem wary (h : w.Held log) : w.wary.Held log :=
  ⟨h.readable, h.missing, h.greater, h.pending, h.goesOn⟩

/-- Whatever a watcher suspects, it is held up. -/
theorem forget (h : w.Held log) : { w with suspect := none }.Held log :=
  ⟨h.readable, h.missing, h.greater, h.pending, h.goesOn⟩

/-- A read of a watcher that is held up begins past the next id. -/
theorem exists_since (h : w.Held log) (hbatch : 0 < batch) :
    ∃ e es, Store.since log w.position batch = .ok (e :: es) ∧ e.revision ≠ w.position + 1 := by
  obtain ⟨r, hr, hlt⟩ := h.greater
  obtain ⟨e, es, hsince, -, ⟨s, hs, hid⟩, -⟩ := h.readable.exists_since_cons hbatch hr (by omega)
  exact ⟨e, es, hsince, hid ▸ h.missing s hs⟩

/-- What a fetch comes to where the id was not missing before. -/
theorem fetch_of_ne (h : w.Held log) (hdb : db.log = some log) (hbatch : 0 < batch) (fuel : Nat)
    (hsuspect : w.suspect ≠ some (w.position + 1)) :
    fetch (alone batch) (fuel + 1) w db =
        ((.ok [], { w with suspect := some (w.position + 1) }), db) := by
  obtain ⟨e, es, hsince, hgap⟩ := h.exists_since hbatch
  rw [fetch_succ, read_alone hdb hsince]
  dsimp only
  rw [judge_cons_of_ne hgap, if_neg hsuspect]

/-- What a fetch comes to where the id was missing before: it is claimed, and the rows are
read again. -/
theorem fetch_of_eq (h : w.Held log) (hdb : db.log = some log) (hbatch : 0 < batch) (fuel : Nat)
    (hsuspect : w.suspect = some (w.position + 1)) {answer : Except Error Unit} {db' : Database}
    (hclaim : (alone batch).claim (w.position + 1) db = (answer, db'))
    (hsettled : settled answer = none) :
    fetch (alone batch) (fuel + 1) w db =
        fetch (alone batch) fuel { w with suspect := none } db' := by
  obtain ⟨e, es, hsince, hgap⟩ := h.exists_since hbatch
  rw [fetch_succ, read_alone hdb hsince]
  dsimp only
  rw [judge_cons_of_ne hgap, if_pos hsuspect]
  dsimp only
  rw [hclaim]
  dsimp only
  rw [hsettled]

/-- A poll that hands out nothing, and sees that the id is missing. -/
theorem poll_of_fetch (h : w.Held log) {fuel : Nat}
    (hfetch : fetch (alone batch) fuel w db =
      ((.ok [], { w with suspect := some (w.position + 1) }), db)) :
    poll (alone batch) fuel w db = ((.ok [], w.wary), db) := by
  rw [poll_eq, h.pending, h.goesOn, hfetch]
  rfl

/-- The first poll that sees that the id is missing waits. -/
theorem poll_of_ne (h : w.Held log) (hdb : db.log = some log) (hbatch : 0 < batch) (fuel : Nat)
    (hsuspect : w.suspect ≠ some (w.position + 1)) :
    poll (alone batch) (fuel + 1) w db = ((.ok [], w.wary), db) :=
  h.poll_of_fetch (h.fetch_of_ne hdb hbatch fuel hsuspect)

/-- **A poll never passes an id that is barred.** The claim is refused, and nothing has changed. -/
theorem poll_of_isBarred (h : w.Held log) (hdb : db.log = some log) (hbatch : 0 < batch)
    (fuel : Nat) (hindexed : log.indexing ≠ .unindexed) (hbarred : log.IsBarred (w.position + 1)) :
    poll (alone batch) (fuel + 2) w db = ((.ok [], w.wary), db) := by
  by_cases hsuspect : w.suspect = some (w.position + 1)
  · have hclaim : (alone batch).claim (w.position + 1) db = (.error .keyExists, db) :=
      claim_alone_of_error hdb (Log.fill_of_isBarred hindexed h.missing hbarred)
    refine h.poll_of_fetch ?_
    rw [h.fetch_of_eq hdb hbatch (fuel + 1) hsuspect hclaim rfl]
    exact h.forget.fetch_of_ne hdb hbatch fuel (by simp)
  · exact h.poll_of_ne hdb hbatch (fuel + 1) hsuspect

/-- However often a watcher polls before an id that is barred, it hands out nothing and stays
where it is. -/
theorem polls_of_isBarred (h : w.Held log) (hdb : db.log = some log) (hbatch : 0 < batch)
    (fuel : Nat) (hindexed : log.indexing ≠ .unindexed) (hbarred : log.IsBarred (w.position + 1))
    (n : Nat) :
    ∃ w', polls (alone batch) (fuel + 2) n w db = ((List.replicate n (.ok []), w'), db) ∧
      w'.position = w.position := by
  induction n generalizing w with
  | zero => exact ⟨w, rfl, rfl⟩
  | succ n ih =>
    obtain ⟨w', hpolls, hposition⟩ := ih h.wary hbarred
    refine ⟨w', ?_, hposition⟩
    rw [polls_succ, h.poll_of_isBarred hdb hbatch fuel hindexed hbarred]
    dsimp only
    rw [hpolls]
    rfl

/-- A poll passes an id that was missing before and is not barred. -/
theorem poll_of_eq (h : w.Held log) (hdb : db.log = some log) (hbatch : 0 < batch) (fuel : Nat)
    (hfree : ¬log.IsBarred (w.position + 1)) (hsuspect : w.suspect = some (w.position + 1)) :
    EndsWell (w.position + 1) (poll (alone batch) (fuel + 2) w db) := by
  have hfill := Log.fill_of_not_isBarred h.readable.rows h.missing hfree
  refine EndsWell.poll h.pending h.goesOn ?_
  rw [h.fetch_of_eq hdb hbatch (fuel + 1) hsuspect (claim_alone_of_ok hdb hfill) rfl]
  generalize hlog : log.put (gapRow (w.position + 1)) h.missing = log' at hfill
  have hr : gapRow (w.position + 1) ∈ log'.rows := hlog ▸ Log.mem_rows_put.2 (Or.inl rfl)
  exact (h.readable.fill hfill).fetch_of_mem (w := { w with suspect := none }) rfl hbatch fuel hr
    rfl

/-- From the second poll on, a watcher is past an id that is not barred. -/
theorem polls_of_not_isBarred (h : w.Held log) (hdb : db.log = some log) (hbatch : 0 < batch)
    (fuel n : Nat) (hfree : ¬log.IsBarred (w.position + 1)) :
    (∀ answer ∈ (polls (alone batch) (fuel + 2) (n + 2) w db).1.1, ∃ es, answer = .ok es) ∧
      w.position + 1 ≤ (polls (alone batch) (fuel + 2) (n + 2) w db).1.2.position := by
  by_cases hsuspect : w.suspect = some (w.position + 1)
  · exact (h.poll_of_eq hdb hbatch fuel hfree hsuspect).polls_succ fun h hdb =>
      h.polls hdb batch (fuel + 2) (n + 1)
  · obtain ⟨hanswers, hle⟩ := (h.wary.poll_of_eq hdb hbatch fuel hfree rfl).polls_succ
      fun h hdb => h.polls hdb batch (fuel + 2) n
    rw [Watcher.polls_succ, h.poll_of_ne hdb hbatch (fuel + 1) hsuspect]
    exact ⟨List.forall_mem_cons.2 ⟨⟨[], rfl⟩, hanswers⟩, hle⟩

/-- **Passing.** Where the next id of a watcher is missing below a greater one, any two polls take
the watcher past it, and none of them fails, unless a row bars the id. Then no poll ever does: all
of them hand out nothing, and neither the watcher nor the log moves. No row bars the id where nobody
but the store wrote to the log. -/
theorem passes (h : w.Held log) (hdb : db.log = some log) (hindexed : log.indexing ≠ .unindexed)
    (hbatch : 0 < batch) {fuel : Nat} (hfuel : 2 ≤ fuel) :
    (¬log.IsBarred (w.position + 1) → ∀ n, 2 ≤ n →
      (∀ answer ∈ (polls (alone batch) fuel n w db).1.1, ∃ es, answer = .ok es) ∧
        w.position + 1 ≤ (polls (alone batch) fuel n w db).1.2.position) ∧
    (log.IsBarred (w.position + 1) → ∀ n, ∃ w',
      polls (alone batch) fuel n w db = ((List.replicate n (.ok []), w'), db) ∧
      w'.position = w.position) ∧
    ∀ (first : Log) (ops : List Op), first.Start → log = first.play ops →
      ¬log.IsBarred (w.position + 1) := by
  obtain ⟨fuel, rfl⟩ := Nat.exists_eq_add_of_le' hfuel
  refine ⟨fun hfree n hn => ?_, h.polls_of_isBarred hdb hbatch fuel hindexed, ?_⟩
  · obtain ⟨n, rfl⟩ := Nat.exists_eq_add_of_le' hn
    exact h.polls_of_not_isBarred hdb hbatch fuel n hfree
  · rintro first ops hstart rfl
    have hsound := (hstart.intact.play ops).toSound
    obtain ⟨watermark, hwatermark, hle⟩ := h.readable.watermark
    obtain rfl : (first.play ops).floor = watermark :=
      Except.ok.inj (hsound.store_compactedTo.symm.trans hwatermark)
    exact hsound.not_isBarred (by omega) h.missing

/-- An id was passed over behind a key that has the name of its placeholder. No user's row bars it,
so two polls pass it, and the third one hands out what follows. -/
theorem exists_passes : ∃ (log : Log) (w : Watcher), w = since 1 ∧
    log = Log.play { indexing := .linkFirst }
      [.create "gap-2" [1] 0, .fill 4 (by decide), .create "b" [2] 0] ∧
    w.Held log ∧ log.indexing ≠ .unindexed ∧ 0 < 500 ∧ 2 ≤ 6 ∧ ¬log.IsBarred 2 ∧
    (∀ answer ∈ (polls (alone 500) 6 2 w { log := some log }).1.1, ∃ es, answer = .ok es) ∧
    2 ≤ (polls (alone 500) 6 2 w { log := some log }).1.2.position ∧
    (polls (alone 500) 6 3 w { log := some log }).1.1 =
      [.ok [], .ok [], .ok [⟨5, "b", true, false, 5, 0, 0, [2], []⟩]] := by
  let log :=
    Log.play { indexing := .linkFirst } [.create "gap-2" [1] 0, .fill 4 (by decide),
      .create "b" [2] 0]
  have htidy : log.Tidy := (Log.Start.empty.intact.play _).toTidy
  have hwatermark : Store.compactedTo log = .ok 0 := by decide +kernel
  have hheld : (since 1).Held log :=
    ⟨⟨fun r hr => ⟨_, (htidy.plain r hr).entry_eq⟩, 0,
      hwatermark, by decide⟩, by decide +kernel, by decide +kernel, rfl, rfl⟩
  have hindexed : log.indexing ≠ .unindexed := by decide +kernel
  have hdb : ({ log := some log } : Database).log = some log := rfl
  obtain ⟨hfree, -, hwritten⟩ := hheld.passes hdb hindexed (by decide : 0 < 500) (by decide : 2 ≤ 6)
  have hopen := hwritten _ _ .empty rfl
  obtain ⟨hanswers, hpassed⟩ := hfree hopen 2 (Nat.le_refl 2)
  exact ⟨log, since 1, rfl, rfl, hheld, hindexed, by decide, by decide, hopen, hanswers, hpassed,
    by decide +kernel⟩

/-- **A watcher can be held up for good.** Of two states of a key that has the name of a
placeholder, the first one was taken away. The second one follows it, and so bars its id. -/
theorem exists_stalled : ∃ (log : Log) (w : Watcher), w = since 0 ∧
    log =
      (Log.play { indexing := .linkFirst } [.create "gap-1" [] 0, .update "gap-1" [] 1 0]).retain
        (·.id ≠ 1) ∧
    w.Held log ∧ log.indexing = .linkFirst ∧ Log.hasSharedLink log.rows = false ∧
    ∀ n, (polls (alone 500) 6 n w { log := some log }).1.2.position < w.position + 1 := by
  let full := Log.play { indexing := .linkFirst } [.create "gap-1" [] 0, .update "gap-1" [] 1 0]
  let log := full.retain (·.id ≠ 1)
  have htidy : full.Tidy := (Log.Start.empty.intact.play _).toTidy
  have hplain : ∀ r ∈ log.rows, r.IsPlain := fun r hr => htidy.plain r (List.mem_filter.1 hr).1
  have hwatermark : Store.compactedTo log = .ok 0 := by decide +kernel
  have hheld : (since 0).Held log :=
    ⟨⟨fun r hr => ⟨_, (hplain r hr).entry_eq⟩, 0,
      hwatermark, by decide⟩, by decide +kernel, by decide +kernel, rfl, rfl⟩
  have hbarred : log.IsBarred 1 := by decide +kernel
  have hindexed : log.indexing ≠ .unindexed := by decide +kernel
  refine ⟨log, since 0, rfl, rfl, hheld, by decide +kernel, by decide +kernel, fun n => ?_⟩
  have hdb : ({ log := some log } : Database).log = some log := rfl
  have hbatch : 0 < 500 := by decide
  obtain ⟨w', hpolls, hposition⟩ := hheld.polls_of_isBarred hdb hbatch 4 hindexed hbarred n
  rw [hpolls]
  dsimp only
  omega

end Held

end Watcher

end RevisionLog
