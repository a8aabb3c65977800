import RevisionLog.Proofs.Heads
import RevisionLog.Transaction

/-!
# Operations and runs

The operations of the clients of a log, one after the other in any order. Each is one transaction,
so one that fails changes nothing.

* `Op`, `Op.perform`, `Log.play` — operations, what comes of one, and a run of them; `Log.answers`
  are its answers.
* `Op.commit_eq_perform` — an undisturbed transaction with the work of an operation is that
  operation.
* `Op.Step` — everything that a successful operation can do to a sound log.
* `Log.Intact` — a sound log with unique links; every run keeps it so (`Log.Intact.play`).
-/

namespace RevisionLog

open Store

/-! ## Work -/

namespace Work

variable {α β : Type} {work : Work α} {next : α → Work β} {db between : Database}

/-- Work that follows work that went well. -/
theorem carryOut_bind_of_ok {a : α} (h : work.carryOut db = (.ok a, between)) :
    (work >>= next).carryOut db = (next a).carryOut between := by
  show (ExceptT.bindCont next (work.carryOut db).1).run (work.carryOut db).2 = _
  rw [h]
  rfl

/-- After work that failed nothing is done. -/
theorem carryOut_bind_of_error {e : Error} (h : work.carryOut db = (.error e, between)) :
    (work >>= next).carryOut db = (.error e, between) := by
  show (ExceptT.bindCont next (work.carryOut db).1).run (work.carryOut db).2 = _
  rw [h]
  rfl

/-- An operation on the log that goes well, as work on a content. -/
theorem carryOut_onLog_of_ok {op : Log → Except Error (α × Log)} {log log' : Log} {a : α}
    (hdb : db.log = some log) (hop : op log = .ok (a, log')) :
    (onLog op).carryOut db = (.ok a, { db with log := some log' }) := by
  have hget : (get : Work Database).carryOut db = (.ok db, db) := rfl
  rw [onLog, carryOut_bind_of_ok hget, hdb]
  dsimp only
  rw [hop]
  rfl

/-- An operation on the log that fails, as work on a content. -/
theorem carryOut_onLog_of_error {op : Log → Except Error (α × Log)} {log : Log} {e : Error}
    (hdb : db.log = some log) (hop : op log = .error e) :
    (onLog op).carryOut db = (.error e, db) := by
  have hget : (get : Work Database).carryOut db = (.ok db, db) := rfl
  rw [onLog, carryOut_bind_of_ok hget, hdb]
  dsimp only
  rw [hop]
  rfl

/-- A question to the log that is answered, as work on a content. -/
theorem carryOut_askLog {op : Log → Except Error α} {table : String} {log : Log} {a : α}
    (hdb : db.log = some log) (hop : op log = .ok a) :
    (askLog op table).carryOut db = (.ok a, db) := by
  have hget : (get : Work Database).carryOut db = (.ok db, db) := rfl
  rw [askLog, carryOut_bind_of_ok hget, hdb]
  dsimp only
  rw [hop]
  rfl

/-- A transaction with nothing that disturbs it comes to its work, if that goes well. -/
theorem run_of_ok {a : α} (h : work.carryOut db = (.ok a, between)) :
    Transaction.run {} (.ok ()) (.ok ()) (.ok ()) work db = (.ok a, between) := by
  simp only [Transaction.run_eq, h]
  rfl

/-- A transaction whose work fails changes nothing. -/
theorem run_of_error {e : Error} (h : work.carryOut db = (.error e, between)) :
    Transaction.run {} (.ok ()) (.ok ()) (.ok ()) work db = (.error e, db) := by
  simp only [Transaction.run_eq, h]
  rfl

end Work

/-! ## Operations -/

/-- What a client asks of a log. Only positive ids are ever claimed with a placeholder. -/
inductive Op
  | create (name : String) (value : Octets) (lease : Int)
  | update (name : String) (value : Octets) (expected lease : Int)
  | delete (name : String) (expected : Int)
  | compact (revision : Int)
  | fill (id : Int) (positive : 0 < id)

namespace Op

/-- The operation on a log. It answers a revision, a number of rows, or the claimed id. -/
def on (log : Log) : Op → Except Error (Int × Log)
  | create name value lease => Store.create log name value lease
  | update name value expected lease => Store.update log name value expected lease
  | delete name expected => Store.delete log name expected
  | compact revision => (Store.compact log revision).map fun (n, log) => (n, log)
  | fill id _ => (Store.fill log id).map fun log => (id, log)

/-- What comes of an operation, and the log after it. -/
def perform (op : Op) (log : Log) : Except Error Int × Log :=
  match op.on log with
  | .ok (n, log) => (.ok n, log)
  | .error e => (.error e, log)

/-- The work of an operation inside a transaction. -/
def work (op : Op) : Work Int := Work.onLog op.on

/-- The transaction of an operation, with nothing that disturbs it. -/
def commit (op : Op) (db : Database) : Except Error Int × Database :=
  Transaction.run {} (.ok ()) (.ok ()) (.ok ()) op.work db

/-- **An operation is one transaction.** It answers what the operation does and leaves its log; one
that fails leaves the whole content as it was. -/
theorem commit_eq_perform (op : Op) {db : Database} {log : Log} (hdb : db.log = some log) :
    op.commit db = ((op.perform log).1, { db with log := some (op.perform log).2 }) := by
  rcases hop : op.on log with e | ⟨n, log'⟩
  · have hwork : op.work.carryOut db = (.error e, db) := Work.carryOut_onLog_of_error hdb hop
    rw [commit, Work.run_of_error hwork, perform, hop, ← hdb]
  · have hwork : op.work.carryOut db = (.ok n, { db with log := some log' }) :=
      Work.carryOut_onLog_of_ok hdb hop
    rw [commit, Work.run_of_ok hwork, perform, hop]

/-- What a successful operation does to a sound log. -/
inductive Step (log : Log) : Op → Int → Log → Prop
  /-- a name without a head begins a life -/
  | create {name : String} {value : Octets} {lease : Int} :
    log.head? name = none →
      Step log (.create name value lease) (log.reached + 1)
        (log.written (log.birth name value lease))
  /-- the named state is the head, and its life goes on -/
  | update {name : String} {p : Entry} {value : Octets} {lease : Int} :
    log.head? name = some p →
      Step log (.update name value p.revision lease) (log.reached + 1)
        (log.written (Log.sequel p false value lease))
  /-- the named state is the head, and its life ends -/
  | delete {name : String} {p : Entry} :
    log.head? name = some p →
      Step log (.delete name p.revision) (log.reached + 1) (log.written (Log.sequel p true [] 0))
  /-- history is gone up to there already -/
  | compacted {revision : Int} :
    revision ≤ log.current → revision ≤ log.floor → Step log (.compact revision) 0 log
  | compact {revision : Int} :
    log.floor < revision → revision ≤ log.current →
      Step log (.compact revision) (log.compact revision).1 (log.compact revision).2
  /-- the id and its link are free -/
  | fill {id : Int} {positive : 0 < id} {fresh : ∀ s ∈ log.rows,
      s.id ≠ ((Draft.placeholder id).toRow id).id} :
    (∀ s ∈ log.rows, ((Draft.placeholder id).toRow id).sameLink s = false) →
      Step log (.fill id positive) id (log.put ((Draft.placeholder id).toRow id) fresh)

/-- A step forgets no id. -/
theorem Step.sequence_le {log log' : Log} {op : Op} {n : Int} (hstep : op.Step log n log') :
    log.sequence.getD 0 ≤ log'.sequence.getD 0 := by
  cases hstep with
  | create _ => exact Int.le_max_left _ _
  | update _ => exact Int.le_max_left _ _
  | delete _ => exact Int.le_max_left _ _
  | compacted _ _ => exact Int.le_refl _
  | compact _ _ => exact Int.le_refl _
  | fill _ => exact Int.le_max_left _ _

end Op

namespace Log

/-- The log after a run of operations. -/
def play (log : Log) (ops : List Op) : Log := ops.foldl (fun log op => (op.perform log).2) log

theorem play_cons (log : Log) (op : Op) (ops : List Op) :
    log.play (op :: ops) = (op.perform log).2.play ops := rfl

/-- The operations of a run, each with its answer. -/
def answers (log : Log) : List Op → List (Op × Except Error Int)
  | [] => []
  | op :: ops => (op, (op.perform log).1) :: answers (op.perform log).2 ops

/-- A sound log whose links are kept unique by its indices. -/
structure Intact (log : Log) : Prop extends Sound log where
  indexed : log.indexing = .linkFirst

variable {log log' : Log}

theorem Tidy.compact_eq (h : log.Tidy) (revision : Int) :
    Store.compact log revision =
      if log.current < revision then .error (.futureRevision revision log.current)
      else if revision ≤ log.floor then .ok (0, log)
      else .ok (log.compact revision) := by
  rw [Store.compact, h.store_currentRevision, h.store_compactedTo]
  simp only [bind, Except.bind, pure, Except.pure]
  split
  · rfl
  · split
    · rfl
    · rfl

namespace Intact

/-- A successful operation is one of the steps. -/
theorem step_of_on (h : log.Intact) {op : Op} {n : Int} (hop : op.on log = .ok (n, log')) :
    op.Step log n log' := by
  cases op with
  | create name value lease =>
    rw [Op.on, h.create_eq] at hop
    split at hop
    · next hfree =>
      obtain ⟨-, rfl, rfl⟩ := append_eq_ok.1 (ask_eq_ok.1 hop)
      exact .create hfree
    · cases hop
  | update name value expected lease =>
    rw [Op.on, update_eq_swap] at hop
    obtain ⟨p, hhead, rfl, happend⟩ := h.of_swap_eq_ok h.indexed hop
    obtain ⟨-, rfl, rfl⟩ := append_eq_ok.1 happend
    exact .update hhead
  | delete name expected =>
    rw [Op.on, delete_eq_swap] at hop
    obtain ⟨p, hhead, rfl, happend⟩ := h.of_swap_eq_ok h.indexed hop
    obtain ⟨-, rfl, rfl⟩ := append_eq_ok.1 happend
    exact .delete hhead
  | compact revision =>
    rw [Op.on, h.compact_eq] at hop
    split at hop
    · cases hop
    · next hle =>
      split at hop
      · next hbelow =>
        simp only [Except.map, Except.ok.injEq, Prod.mk.injEq] at hop
        obtain ⟨rfl, rfl⟩ := hop
        exact .compacted (Int.not_lt.1 hle) hbelow
      · next habove =>
        simp only [Except.map, Except.ok.injEq, Prod.mk.injEq] at hop
        obtain ⟨rfl, rfl⟩ := hop
        exact .compact (Int.not_le.1 habove) (Int.not_lt.1 hle)
  | fill id positive =>
    rw [Op.on, Store.fill] at hop
    rcases hfill : log.fill id with fault | filled
    · rw [hfill] at hop
      cases hop
    · rw [hfill] at hop
      simp only [ask, Except.mapError, Except.map, Except.ok.injEq, Prod.mk.injEq] at hop
      obtain ⟨rfl, rfl⟩ := hop
      obtain ⟨hclash, fresh, rfl⟩ := fill_eq_ok hfill
      exact .fill fun s hs => sameLink_of_linkClash?_eq_none h.indexed hclash hs

/-- **A step keeps a log intact.** -/
theorem step (h : log.Intact) {op : Op} {n : Int} (hstep : op.Step log n log') : log'.Intact := by
  cases hstep with
  | create hfree => exact ⟨h.written (continues_birth hfree), h.indexed⟩
  | update hhead => exact ⟨h.written (continues_sequel hhead), h.indexed⟩
  | delete hhead => exact ⟨h.written (continues_sequel hhead), h.indexed⟩
  | compacted => exact h
  | compact habove hle => exact ⟨h.toSound.compact habove hle, h.indexed⟩
  | @fill _ positive _ hfree => exact ⟨h.put_placeholder positive hfree, h.indexed⟩

/-- An operation is a step, or it fails and changes nothing. -/
theorem perform_cases (h : log.Intact) (op : Op) :
    (∃ n log', op.perform log = (.ok n, log') ∧ op.Step log n log') ∨
    ∃ e, op.perform log = (.error e, log) := by
  rcases hop : op.on log with e | ⟨n, log'⟩
  · exact Or.inr ⟨e, by rw [Op.perform, hop]⟩
  · exact Or.inl ⟨n, log', by rw [Op.perform, hop], h.step_of_on hop⟩

theorem perform (h : log.Intact) (op : Op) : (op.perform log).2.Intact := by
  rcases h.perform_cases op with ⟨n, log', hperform, hstep⟩ | ⟨e, hperform⟩
  · rw [hperform]
    exact h.step hstep
  · rw [hperform]
    exact h

/-- **A run keeps a log intact.** -/
theorem play (h : log.Intact) (ops : List Op) : (log.play ops).Intact := by
  induction ops generalizing log with
  | nil => exact h
  | cons op ops ih => exact ih (h.perform op)

end Intact

end Log

end RevisionLog
