import RevisionLog.Proofs.Density
import RevisionLog.Proofs.Tracking
import RevisionLog.Retry

/-!
# The succession of revisions

A file begins empty. It is opened, and opened again, clients write to the store and compact it, and
watchers read it. Every transaction of theirs may fail, or be cancelled, at any of its moments.
Whatever happens, a write that succeeds gets the revision after the current one, nothing else moves
the current revision, and no watcher finds an id missing.

* `Log.Dense.exists_trail_ahead` — what a watcher reads of a dense log is a trail.
* `Course` — how one transaction goes; `Course.run_cases` — it comes to its work, or to nothing.
* `Site` — a file, and how the transactions to come go; `Deed` — what is done there.
* `Site.Settles` — programs that leave the revisions where they are, as openings and watchers do.
* `Site.revisions_succeed` — what holds in every run.
-/

namespace RevisionLog

open Store Watcher

/-! ## Reads of a dense log -/

/-- Entries in order that pass over no revision are a trail. -/
theorem Trail.of_pairwise {start : Int} {es : List Entry}
    (hsorted : es.Pairwise (·.revision < ·.revision)) (habove : ∀ e ∈ es, start < e.revision)
    (hfull : ∀ e ∈ es, ∀ id, start < id → id ≤ e.revision → ∃ f ∈ es, f.revision = id) :
    ∃ stop, Trail start stop es := by
  induction es generalizing start with
  | nil => exact ⟨start, rfl⟩
  | cons e es ih =>
    obtain ⟨hfirst, hrest⟩ := List.pairwise_cons.1 hsorted
    have hnext : e.revision = start + 1 := by
      have hlt := habove e List.mem_cons_self
      obtain ⟨f, hf, hrev⟩ := hfull e List.mem_cons_self (start + 1) (by omega) (by omega)
      rcases List.mem_cons.1 hf with rfl | hf
      · exact hrev
      · have hlater := hfirst f hf
        omega
    have htail : ∀ f ∈ es, ∀ id, e.revision < id → id ≤ f.revision → ∃ g ∈ es, g.revision = id := by
      intro f hf id hlt hle
      obtain ⟨g, hg, hrev⟩ := hfull f (List.mem_cons_of_mem e hf) id (by omega) hle
      rcases List.mem_cons.1 hg with rfl | hg
      · omega
      · exact ⟨g, hg, hrev⟩
    obtain ⟨stop, htrail⟩ := ih hrest hfirst htail
    exact ⟨stop, hnext, htrail⟩

/-- **What a watcher reads of a dense log is a trail.** -/
theorem Log.Dense.exists_trail_ahead {log : Log} (h : log.Dense) {position : Int}
    (hfloor : log.floor ≤ position) (batch : Nat) :
    ∃ stop, Trail position stop (log.ahead position batch) := by
  have hall : ∃ stop, Trail position stop (log.entries.filter (position < ·.revision)) := by
    refine Trail.of_pairwise (log.pairwise_entries.filter _) ?_ ?_
    · exact fun e he => of_decide_eq_true (List.mem_filter.1 he).2
    · intro e he id hlt hle
      have hcurrent := revision_le_current (List.mem_filter.1 he).1
      obtain ⟨r, hr, hid⟩ := h.row id (by omega) (by omega)
      have habove : position < r.toEntry.revision := by rwa [Row.revision_toEntry, hid]
      exact ⟨r.toEntry, List.mem_filter.2 ⟨List.mem_map_of_mem hr, decide_eq_true habove⟩, hid⟩
  obtain ⟨stop, htrail⟩ := hall
  unfold Log.ahead
  dsimp only
  split
  · rw [← List.take_append_drop batch (log.entries.filter _)] at htrail
    obtain ⟨between, hfront, -⟩ := htrail.of_append
    exact ⟨between, hfront⟩
  · exact ⟨stop, htrail⟩

namespace Watcher

/-- Of a trail nothing is missing. -/
theorem absorb_of_trail {position stop : Int} {rows : List Entry} (h : Trail position stop rows) :
    ∃ batch, absorb position rows = (stop, batch, none) := by
  induction rows generalizing position with
  | nil =>
    obtain rfl : position = stop := h
    exact ⟨[], rfl⟩
  | cons e rows ih =>
    obtain ⟨batch, hrest⟩ := ih h.2
    rw [absorb, if_neg (not_not.2 h.1), hrest]
    exact ⟨_, rfl⟩

/-- Where a trail is read no id is claimed. -/
theorem judge_ne_claim {w w' : Watcher} {stop : Int} {rows : List Entry}
    (h : Trail w.position stop rows) {id : Int} : w.judge rows ≠ (.claim id, w') := by
  obtain ⟨batch, habsorb⟩ := absorb_of_trail h
  rw [judge, habsorb]
  dsimp only
  split <;> rintro ⟨⟩

end Watcher

/-! ## Transactions that are disturbed -/

/-- How a transaction goes: what its context says, and whether it is let in, begun and committed. -/
structure Course where
  looks : Transaction.Looks := {}
  entry : Except Error Unit := .ok ()
  begin : Except Error Unit := .ok ()
  commit : Except Error Unit := .ok ()

variable {α β : Type}

/-- A transaction that goes so. -/
def Course.run (course : Course) (work : Work α) (db : Database) : Except Error α × Database :=
  Transaction.run course.looks course.entry course.begin course.commit work db

/-- **A transaction does its work, or nothing.** -/
theorem Course.run_cases (course : Course) (work : Work α) (db : Database) :
    (∃ a db', work.carryOut db = (.ok a, db') ∧ course.run work db = (.ok a, db')) ∨
      ∃ e, course.run work db = (.error e, db) := by
  rw [Course.run, Transaction.run_eq]
  rcases Transaction.stop course.looks.start with e | _
  · exact Or.inr ⟨e, rfl⟩
  rcases Transaction.enter course.looks course.entry course.begin with e | _
  · exact Or.inr ⟨_, rfl⟩
  rcases work.carryOut db with ⟨e | a, db'⟩
  · exact Or.inr ⟨_, rfl⟩
  rcases Transaction.stop course.looks.committing with e | _
  · exact Or.inr ⟨_, rfl⟩
  rcases course.commit with e | _
  · exact Or.inr ⟨_, rfl⟩
  · exact Or.inl ⟨a, db', rfl, rfl⟩

/-- Work that asks the log, where it went well. -/
theorem Work.of_carryOut_askLog {op : Log → Except Error α} {table : String} {a : α}
    {db db' : Database} (h : (askLog op table).carryOut db = (.ok a, db')) :
    db' = db ∧ ∃ log, db.log = some log ∧ op log = .ok a := by
  have hget : (get : Work Database).carryOut db = (.ok db, db) := rfl
  rw [askLog, carryOut_bind_of_ok hget] at h
  rcases hlog : db.log with _ | log <;> rw [hlog] at h
  · cases h
  · dsimp only at h
    rcases hop : op log with e | b <;> rw [hop] at h <;> cases h
    exact ⟨rfl, log, rfl, hop⟩

/-! ## Files -/

namespace Database

/-- What is in the tables of a file. Before they are made it is nothing. -/
def content (db : Database) : Log := db.log.getD {}

/-- What a file can hold on its way from nothing to an open store. -/
inductive Staged : Database → Prop
  | bare : Staged {}
  | made : Staged { log := some {} }
  | ready {log : Log} : log.Dense → Staged { log := some log, version := Migration.version }

/-- A file has a watermark and a current revision. The latter is the greatest id that the engine
remembers, and every id between the two has a row. -/
structure Stands (db : Database) (watermark current : Int) : Prop where
  compactedTo : Store.compactedTo db.content = .ok watermark
  currentRevision : Store.currentRevision db.content = .ok current
  le : watermark ≤ current
  sequence : current = db.content.sequence.getD 0
  row : ∀ id, watermark < id → id ≤ current → ∃ r ∈ db.content.rows, r.id = id

/-- Two files have the same revisions. -/
def Level (db db' : Database) : Prop :=
  db'.content.floor = db.content.floor ∧ db'.content.current = db.content.current

variable {db db' db'' : Database}

theorem Level.refl (db : Database) : db.Level db := ⟨rfl, rfl⟩

theorem Level.trans (h : db.Level db') (h' : db'.Level db'') : db.Level db'' :=
  ⟨h'.1.trans h.1, h'.2.trans h.2⟩

theorem Staged.stands (h : db.Staged) : db.Stands db.content.floor db.content.current := by
  have hempty : ∀ id : Int, 0 < id → id ≤ 0 → ∃ r ∈ ([] : List Row), r.id = id :=
    fun id hlt hle => by omega
  cases h with
  | bare => exact ⟨rfl, rfl, Int.le_refl 0, rfl, hempty⟩
  | made => exact ⟨rfl, rfl, Int.le_refl 0, rfl, hempty⟩
  | @ready log hdense =>
    exact ⟨hdense.store_compactedTo, hdense.store_currentRevision, log.floor_le_current,
      hdense.abreast, hdense.row⟩

/-- An open file holds a dense log. -/
theorem Staged.exists_dense (h : db.Staged) (hversion : db.version = Migration.version) :
    ∃ log, log.Dense ∧ db = { log := some log, version := Migration.version } := by
  cases h with
  | bare => cases hversion
  | made => cases hversion
  | ready hdense => exact ⟨_, hdense, rfl⟩

/-! ## What the steps of an opening do to a file -/

theorem Staged.createTables (h : db.Staged) : Staged { db with log := some (db.log.getD {}) } := by
  cases h with
  | bare => exact .made
  | made => exact .made
  | ready hdense => exact .ready hdense

/-- A migration that goes well leaves an open file, and moves no revision. -/
theorem Staged.migrate (h : db.Staged) {status : MigrationStatus}
    (hrun : (Migration.run).carryOut db = (.ok status, db')) :
    db'.Staged ∧ db'.version = Migration.version ∧ db.Level db' := by
  cases h with
  | bare => cases hrun
  | made =>
    cases hrun
    exact ⟨.ready Log.dense_empty, rfl, rfl, rfl⟩
  | ready hdense =>
    cases hrun
    exact ⟨.ready hdense, rfl, .refl _⟩

end Database

/-! ## Sites -/

/-- A file, whether a store was opened on it, how its transactions and pauses to come go, and which
ids watchers tried to claim. Where nothing more is told, nothing is disturbed. -/
structure Site where
  db : Database := {}
  opened : Bool := false
  courses : List Course := []
  rests : List Rest := []
  claims : List Int := []

namespace Site

/-- A transaction. -/
def transact (work : Work α) : StateM Site (Except Error α) := fun site =>
  let (outcome, db) := (site.courses.headD {}).run work site.db
  (outcome, { site with db, courses := site.courses.tail })

/-- A pause. -/
def pause : StateM Site Rest :=
  fun site => (site.rests.headD .over, { site with rests := site.rests.tail })

/-- A pause between two attempts, which the context can end. -/
def pauseBetween : StateM Site (Except Error Unit) := do
  match ← pause with
  | .stopped cause => return .error cause.toError
  | _ => return .ok ()

/-- How a watcher reaches the log. Its claims are remembered, whatever comes of them. -/
def source (batch : Nat) : Source (StateM Site) where
  read position := transact (Work.askLog (Store.since · position batch) metaTable)
  claim id := do
    modify fun site => { site with claims := site.claims ++ [id] }
    transact (Work.fill id)

/-- Brings the file to the current layout. If that goes well a store is open. -/
def migrate : StateM Site (Except Error Unit) := fun site =>
  match transact Migration.run site with
  | (.ok _, site) => (.ok (), { site with opened := true })
  | (.error e, site) => (.error e, site)

/-- Opens a store. -/
def openStore (policy : RetrySettings) : StateM Site (Except Error Unit) := do
  match ← Retry.run policy (transact Work.createTables) pauseBetween with
  | .error e => return .error e
  | .ok _ => migrate

end Site

/-- What is done with a file. A watcher may be in any state. -/
inductive Deed
  | opening (policy : RetrySettings)
  | request (request : Request)
  | poll (w : Watcher) (batch fuel : Nat)
  | next (w : Watcher) (batch fuel rounds : Nat)

namespace Deed

/-- Whether a deed writes a state of a key. -/
def isWrite : Deed → Bool
  | request r => !r.isCompact
  | _ => false

/-- A deed at a site, and the answer to a request. Without a store there is nobody to ask. -/
def perform (deed : Deed) (site : Site) : Option (Except Error Int) × Site :=
  match deed, site.opened with
  | .opening policy, _ => (none, (Site.openStore policy site).2)
  | .request r, true =>
    let (answer, site) := Site.transact r.op.work site
    (some answer, site)
  | .poll w batch fuel, true => (none, (w.poll (Site.source batch) fuel site).2)
  | .next w batch fuel rounds, true =>
    (none, (w.next (Site.source batch) Site.pause (pure fuel) rounds site).2)
  | _, false => (none, site)

/-- What a deed makes of the revisions: a write that succeeded was told the revision after
the current one, which is the current one now, and by anything else the current revision is
not moved. -/
structure Moves (deed : Deed) (answer : Option (Except Error Int))
    (watermark current watermark' current' : Int) : Prop where
  watermark_le : watermark ≤ watermark'
  write : ∀ n, deed.isWrite = true → answer = some (.ok n) → n = current + 1 ∧ current' = n
  other : (∀ n, deed.isWrite = true → answer ≠ some (.ok n)) → current' = current

end Deed

namespace Site

/-- A site after deeds. -/
def run (site : Site) (deeds : List Deed) : Site :=
  deeds.foldl (fun site deed => (deed.perform site).2) site

/-- What holds of a site at every moment. -/
structure Sane (site : Site) : Prop where
  staged : site.db.Staged
  opened : site.opened = true → site.db.version = Migration.version
  claims : site.claims = []

/-! ## Programs that move no revision -/

/-- A program keeps a site sane, leaves its revisions where they are, and answers as is said. -/
def Settles (p : StateM Site α) (post : α → Prop) : Prop :=
  ∀ site : Site, site.Sane → (p site).2.Sane ∧ site.db.Level (p site).2.db ∧ post (p site).1

theorem settles_pure {post : α → Prop} {a : α} (h : post a) : Settles (pure a) post :=
  fun site hsane => ⟨hsane, .refl site.db, h⟩

theorem Settles.bind {p : StateM Site α} {next : α → StateM Site β} {post : α → Prop}
    {post' : β → Prop} (hp : Settles p post) (hnext : ∀ a, post a → Settles (next a) post') :
    Settles (p >>= next) post' := by
  intro site hsane
  obtain ⟨hbetween, hlevel, hpost⟩ := hp site hsane
  obtain ⟨hafter, hlevel', hpost'⟩ := hnext _ hpost _ hbetween
  exact ⟨hafter, hlevel.trans hlevel', hpost'⟩

/-- A transaction whose work moves no revision. -/
theorem settles_transact {work : Work α} {post : Except Error α → Prop}
    (hfail : ∀ e, post (.error e)) (hwork : ∀ (db : Database) (a : α) (db' : Database), db.Staged →
      work.carryOut db = (.ok a, db') →
      db'.Staged ∧ db'.version = db.version ∧ db.Level db' ∧
      post (.ok a)) : Settles (transact work) post := by
  intro site hsane
  unfold transact
  rcases (site.courses.headD {}).run_cases work site.db with ⟨a, db', hcarry, hrun⟩ | ⟨e, hrun⟩ <;>
    rw [hrun]
  · obtain ⟨hstaged, hversion, hlevel, hpost⟩ := hwork _ _ _ hsane.staged hcarry
    exact ⟨⟨hstaged, fun hopened => hversion.trans (hsane.opened hopened), hsane.claims⟩, hlevel,
      hpost⟩
  · exact ⟨⟨hsane.staged, hsane.opened, hsane.claims⟩, .refl _, hfail e⟩

theorem settles_pause : Settles pause fun _ => True :=
  fun site hsane => ⟨⟨hsane.staged, hsane.opened, hsane.claims⟩, .refl site.db, trivial⟩

/-! ### Openings -/

theorem settles_createTables : Settles (transact Work.createTables) fun _ => True := by
  refine settles_transact (fun _ => trivial) ?_
  rintro db _ _ hstaged ⟨⟩
  exact ⟨hstaged.createTables, rfl, ⟨rfl, rfl⟩, trivial⟩

theorem settles_pauseBetween : Settles pauseBetween fun _ => True := by
  refine settles_pause.bind fun rest _ => ?_
  cases rest <;> exact settles_pure trivial

/-- Attempts that move no revision, as often as they are made. -/
theorem settles_retry {attempt wait : StateM Site (Except Error Unit)}
    (hattempt : Settles attempt fun _ => True) (hwait : Settles wait fun _ => True)
    (allowed left : Nat) (last : Error) :
    Settles (Retry.go attempt wait allowed left last) fun _ => True := by
  induction left generalizing last with
  | zero => exact settles_pure trivial
  | succ left ih =>
    refine hattempt.bind fun outcome _ => ?_
    rcases outcome with e | _
    · dsimp only
      split
      · exact settles_pure trivial
      · split
        · exact settles_pure trivial
        · refine hwait.bind fun waited _ => ?_
          rcases waited with cause | _
          · exact settles_pure trivial
          · exact ih e
    · exact settles_pure trivial

theorem settles_migrate : Settles migrate fun _ => True := by
  intro site hsane
  unfold migrate transact
  rcases (site.courses.headD {}).run_cases Migration.run site.db with ⟨status, db', hcarry, hrun⟩ |
    ⟨e, hrun⟩ <;> rw [hrun]
  · obtain ⟨hstaged, hversion, hlevel⟩ := hsane.staged.migrate hcarry
    exact ⟨⟨hstaged, fun _ => hversion, hsane.claims⟩, hlevel, trivial⟩
  · exact ⟨⟨hsane.staged, hsane.opened, hsane.claims⟩, .refl _, trivial⟩

/-- **An opening moves no revision**, whether it comes to an open store or not. -/
theorem settles_openStore (policy : RetrySettings) : Settles (openStore policy) fun _ => True := by
  refine (settles_retry settles_createTables settles_pauseBetween _ _ _).bind fun outcome _ => ?_
  rcases outcome with e | _
  · exact settles_pure trivial
  · exact settles_migrate

/-! ### Watchers -/

/-- What a watcher reads is a trail from its position. -/
theorem settles_read (batch : Nat) (position : Int) :
    Settles ((source batch).read position) fun answer =>
    ∀ rows, answer = .ok rows → ∃ stop, Trail position stop rows := by
  refine settles_transact (fun e rows hrows => by cases hrows) ?_
  intro db rows db' hstaged hcarry
  obtain ⟨rfl, log, hlog, hsince⟩ := Work.of_carryOut_askLog hcarry
  refine ⟨hstaged, rfl, .refl _, ?_⟩
  rintro _ ⟨⟩
  -- what settles is said of every sane site, and so also of one where no store is open yet
  cases hstaged with
  | bare => cases hlog
  | made =>
    -- the tables are empty, and so is what is read of them
    cases hlog
    rw [(Log.sound_empty .unindexed).since_eq] at hsince
    split at hsince <;> cases hsince
    exact ⟨position, by simp [Log.ahead, Log.entries, Trail]⟩
  | ready hdense =>
    cases hlog
    rw [hdense.since_eq] at hsince
    split at hsince
    · cases hsince
    · next hfloor =>
      cases hsince
      exact hdense.exists_trail_ahead (Int.not_lt.1 hfloor) batch

/-- **A watcher moves no revision and claims no id** in a fetch. -/
theorem settles_fetch (batch fuel : Nat) (w : Watcher) :
    Settles (fetch (source batch) fuel w) fun _ => True := by
  induction fuel generalizing w with
  | zero => exact settles_pure trivial
  | succ fuel ih =>
    refine (settles_read batch w.position).bind fun answer htrail => ?_
    rcases answer with e | rows
    · exact settles_pure trivial
    · obtain ⟨stop, htrail⟩ := htrail rows rfl
      dsimp only
      rcases hjudge : w.judge rows with ⟨_ | _ | id, w'⟩
      · exact settles_pure trivial
      · exact ih w'
      · exact absurd hjudge (judge_ne_claim htrail)

theorem settles_poll (batch fuel : Nat) (w : Watcher) :
    Settles (w.poll (source batch) fuel) fun _ => True := by
  unfold Watcher.poll
  split
  · exact settles_pure trivial
  · split
    · exact settles_pure trivial
    · refine (settles_fetch batch fuel w).bind fun outcome _ => ?_
      rcases outcome with ⟨e | rows, w'⟩ <;> exact settles_pure trivial

theorem settles_round (batch fuel : Nat) (w : Watcher) :
    Settles (w.round (source batch) fuel) fun _ => True := by
  unfold Watcher.round
  split
  · exact settles_pure trivial
  · split
    · exact settles_pure trivial
    · refine (settles_fetch batch fuel w).bind fun outcome _ => ?_
      rcases outcome with ⟨e | rows, w'⟩ <;> dsimp only <;> split <;> exact settles_pure trivial

theorem settles_next (batch fuel rounds : Nat) (w : Watcher) :
    Settles (w.next (source batch) pause (pure fuel) rounds) fun _ => True := by
  induction rounds generalizing w with
  | zero => exact settles_pure trivial
  | succ rounds ih =>
    have hbound : Settles (pure fuel) fun _ => True := settles_pure trivial
    refine hbound.bind fun bound _ => (settles_round batch bound w).bind fun pulled _ => ?_
    rcases pulled with ⟨_ | _ | _ | _, w'⟩
    · exact settles_pure trivial
    · exact settles_pure trivial
    · exact settles_pure trivial
    · refine settles_pause.bind fun rest _ => ?_
      rcases rest with _ | cause | _
      · exact ih w'
      · exact settles_pure trivial
      · exact settles_pure trivial

/-! ## Runs -/

/-- **A request moves the current revision by its own write only.** -/
theorem Sane.request {site : Site} (h : site.Sane) (hopened : site.opened = true) (r : Request) :
    (transact r.op.work site).2.Sane ∧ (Deed.request r).Moves (some (transact r.op.work site).1)
      site.db.content.floor site.db.content.current
      (transact r.op.work site).2.db.content.floor
      (transact r.op.work site).2.db.content.current := by
  obtain ⟨log, hdense, hdb⟩ := h.staged.exists_dense (h.opened hopened)
  unfold transact
  rcases (site.courses.headD {}).run_cases r.op.work site.db with ⟨n, db', hcarry, hrun⟩ |
    ⟨e, hrun⟩ <;> rw [hrun]
  · rcases hop : r.op.on log with e | ⟨m, log'⟩
    · rw [hdb, Op.work, Work.carryOut_onLog_of_error rfl hop] at hcarry
      cases hcarry
    · rw [hdb, Op.work, Work.carryOut_onLog_of_ok rfl hop] at hcarry
      cases hcarry
      obtain ⟨hafter, hfloor, hmoved⟩ := hdense.step r (hdense.step_of_on hop)
      refine ⟨⟨.ready hafter, fun _ => rfl, h.claims⟩, ?_⟩
      rw [hdb]
      refine ⟨hfloor, ?_, ?_⟩
      · rintro _ hwrite ⟨⟩
        rw [Deed.isWrite, Bool.not_eq_true'] at hwrite
        rw [if_neg (by rw [hwrite]; decide)] at hmoved
        exact hmoved
      · intro hother
        rcases hcompact : r.isCompact with _ | _
        · exact absurd rfl (hother n (by rw [Deed.isWrite, hcompact]; rfl))
        · rw [if_pos hcompact] at hmoved
          exact hmoved
  · refine ⟨⟨h.staged, h.opened, h.claims⟩, Int.le_refl _, ?_, fun _ => rfl⟩
    rintro n - ⟨⟩

/-- What settles moves no revision. -/
theorem Settles.moves {p : StateM Site α} {post : α → Prop} (hp : Settles p post) {site : Site}
    (h : site.Sane) (deed : Deed) :
    (p site).2.Sane ∧
    deed.Moves none site.db.content.floor site.db.content.current
      (p site).2.db.content.floor (p site).2.db.content.current := by
  obtain ⟨hafter, ⟨hfloor, hcurrent⟩, -⟩ := hp site h
  rw [hfloor, hcurrent]
  refine ⟨hafter, Int.le_refl _, ?_, fun _ => rfl⟩
  rintro n - ⟨⟩

/-- **What a deed makes of a site.** -/
theorem Sane.perform {site : Site} (h : site.Sane) (deed : Deed) :
    (deed.perform site).2.Sane ∧
    deed.Moves (deed.perform site).1 site.db.content.floor site.db.content.current
      (deed.perform site).2.db.content.floor (deed.perform site).2.db.content.current := by
  have hidle : Settles (pure ()) fun _ => True := settles_pure trivial
  rcases hopened : site.opened with _ | _ <;> cases deed <;> simp only [Deed.perform, hopened]
  case false.opening policy => exact (settles_openStore policy).moves h _
  case false.request r => exact hidle.moves h _
  case false.poll w batch fuel => exact hidle.moves h _
  case false.next w batch fuel rounds => exact hidle.moves h _
  case true.opening policy => exact (settles_openStore policy).moves h _
  case true.request r => exact h.request hopened r
  case true.poll w batch fuel => exact (settles_poll batch fuel w).moves h _
  case true.next w batch fuel rounds => exact (settles_next batch fuel rounds w).moves h _

theorem sane_begin (courses : List Course) (rests : List Rest) : Sane { courses, rests } where
  staged := .bare
  opened hopened := by cases hopened
  claims := rfl

theorem Sane.run {site : Site} (h : site.Sane) (deeds : List Deed) : (site.run deeds).Sane := by
  induction deeds generalizing site with
  | nil => exact h
  | cons deed deeds ih => exact ih (h.perform deed).1

theorem run_concat (site : Site) (deeds : List Deed) (deed : Deed) :
    site.run (deeds ++ [deed]) = (deed.perform (site.run deeds)).2 :=
  List.foldl_concat ..

/-- **Revisions succeed each other.** From a file that begins empty, and whatever disturbs the
transactions, every deed finds the revisions in order and leaves them so. A write that succeeds gets
the revision after the current one, by nothing else is the current revision moved, and no watcher
ever tries to claim an id. -/
theorem revisions_succeed (courses : List Course) (rests : List Rest) (deeds : List Deed)
    (deed : Deed) :
    ∃ watermark current watermark' current',
      (run { courses, rests } deeds).db.Stands watermark current ∧
      (run { courses, rests } (deeds ++ [deed])).db.Stands watermark' current' ∧
      deed.Moves (deed.perform (run { courses, rests } deeds)).1 watermark current watermark'
        current' ∧
      (run { courses, rests } (deeds ++ [deed])).claims = [] := by
  have hsane := (sane_begin courses rests).run deeds
  obtain ⟨hafter, hmoves⟩ := hsane.perform deed
  rw [run_concat]
  exact ⟨_, _, _, _, hsane.staged.stands, hafter.staged.stands, hmoves, hafter.claims⟩

/-- An opening is cancelled before its migration, and a deletion at its commit. In the end all rows
are compacted away, and the next one still gets the next revision. -/
example : ((run { courses := [{}, { looks := { start := some .cancelled } }, {}, {}, {},
      { looks := { committing := some .cancelled } }] }
    [.opening {}, .opening {}, .request (.create "a" [1] 0), .request (.delete "a" 1),
      .request (.delete "a" 1), .request (.compact 2), .poll (.since 2) 5 9,
      .request (.create "a" [2] 0)]).db.content.rows.map Row.id) = [3] := by
  decide +kernel

end Site

end RevisionLog
