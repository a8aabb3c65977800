import RevisionLog.Proofs.Replay

/-!
# Races

Writers race for the head of a name. The store decides by a look at the named row and by the index
of links; together they take exactly the writer that names the head, and no head is replaced twice,
whatever compaction took away.

* `Op.IsDecidedBy` — an operation is taken under a condition and refused as a lost race otherwise.
* `Log.Intact.decided` — the conditions of the three writes.
* `Log.Spent` — a revision that can never be the head of a name again; every step keeps it so.
* `Log.Start.compare_and_swap` — both over whole runs.
-/

namespace RevisionLog

namespace Op

/-- A condition decides whether an operation is taken. Where it fails, the race is lost and nothing
changes. -/
structure IsDecidedBy (op : Op) (db : Database) (taken : Prop) : Prop where
  won : taken → ∃ id log, op.commit db = (.ok id, { db with log := some log })
  lost : ¬taken → op.commit db = (.error .keyExists, db)

/-- Whether an operation replaces this revision of a name. -/
def swaps (name : String) (expected : Int) : Op → Bool
  | update name' _ expected' _ => name' = name && expected' = expected
  | delete name' expected' => name' = name && expected' = expected
  | _ => false

/-- Whether an operation replaced this revision of a name. -/
def replaced (name : String) (expected : Int) (r : Op × Except Error Int) : Bool :=
  r.1.swaps name expected && r.2.isOk

end Op

namespace Log

variable {log log' : Log} {name : String} {expected : Int}

namespace Intact

/-! ## One operation -/

/-- What a transaction makes of an operation whose answer on the log is known. -/
theorem isDecidedBy (op : Op) {db : Database} (hdb : db.log = some log) {taken : Prop}
    (hwon : taken → ∃ id log', op.on log = .ok (id, log'))
    (hlost : ¬taken → op.on log = .error .keyExists) :
    op.IsDecidedBy db taken where
  won htaken := by
    obtain ⟨id, log', hop⟩ := hwon htaken
    refine ⟨id, log', ?_⟩
    rw [op.commit_eq_perform hdb, Op.perform, hop]
  lost hnot := by
    rw [op.commit_eq_perform hdb, Op.perform, hlost hnot]
    obtain ⟨dblog, version, legacy⟩ := db
    obtain rfl : dblog = some log := hdb
    rfl

/-- As long as ids are left, a row is written behind all others. -/
theorem exists_append (h : log.Intact) (hleft : log.sequence.getD 0 < Revision.greatest)
    (d : Draft) : ∃ id log', Store.ask (log.append d) = .ok (id, log') := by
  refine ⟨log.reached + 1, log.written d, ?_⟩
  rw [append, if_pos (by rw [h.reached_eq]; exact hleft)]
  rfl

/-- **A creation is taken exactly where there is no head.** -/
theorem create_decided (h : log.Intact) (hleft : log.sequence.getD 0 < Revision.greatest)
    {db : Database} (hdb : db.log = some log) (name : String) (value : Octets) (lease : Int) :
    (Op.create name value lease).IsDecidedBy db (log.head? name = none) := by
  refine isDecidedBy _ hdb ?_ ?_ <;> intro hhead <;> rw [Op.on, h.create_eq]
  · rw [if_pos hhead]
    exact h.exists_append hleft _
  · rw [if_neg hhead]

/-- **An update and a deletion are taken exactly where they name the head.** -/
theorem swap_decided (h : log.Intact) (hleft : log.sequence.getD 0 < Revision.greatest)
    {db : Database} (hdb : db.log = some log) {op : Op} {deleted : Bool} {value : Octets}
    {lease : Int}
    (hop : op.on log = log.swap name deleted value expected lease) :
    op.IsDecidedBy db ((log.head? name).map Entry.revision = some expected) := by
  refine isDecidedBy op hdb ?_ ?_ <;> intro hhead <;> rw [hop]
  · obtain ⟨p, hp, rfl⟩ := Option.map_eq_some_iff.1 hhead
    rw [h.swap_head hp]
    exact h.exists_append hleft _
  · have hstale : ∀ p, log.head? name = some p → p.revision ≠ expected := by
      intro p hp hrev
      exact hhead (by rw [hp, Option.map_some, hrev])
    obtain ⟨e, herror, hkey⟩ := h.swap_stale h.indexed hstale deleted value lease
    rw [herror, hkey (by rw [h.reached_eq]; exact hleft)]

end Intact

/-! ## Replaced heads -/

/-- A revision that is known and is no head of a name, and never will be: every head that the name
can still have is above it. -/
structure Spent (log : Log) (name : String) (expected : Int) : Prop where
  known : expected ≤ log.sequence.getD 0
  below : ∀ p, log.head? name = some p → expected < p.revision

/-- The head of a name after a row that continues a chain is the new row, or the head before it. -/
theorem Continues.head?_written {d : Draft} (hd : log.Continues d) {p : Entry}
    (hp : (log.written d).head? name = some p) :
    p = log.upcoming d ∨ ((log.upcoming d).name ≠ name ∧ log.head? name = some p) := by
  obtain ⟨hlast, hlive⟩ := head?_eq_some.1 hp
  rw [hd.chain_written] at hlast
  split at hlast
  · rw [List.getLast?_concat] at hlast
    exact Or.inl (Option.some.inj hlast).symm
  · next hother => exact Or.inr ⟨hother, head?_eq_some.2 ⟨hlast, hlive⟩⟩

/-- Compaction makes no state the head of its name. -/
theorem Sound.head?_compact (h : log.Sound) {revision : Int} {p : Entry}
    (hp : (log.compact revision).2.head? name = some p) : log.head? name = some p := by
  obtain ⟨hlast, hlive⟩ := head?_eq_some.1 hp
  obtain ⟨gone, happend, -⟩ := h.chain_compact revision name
  refine head?_eq_some.2 ⟨?_, hlive⟩
  rw [← happend, List.getLast?_append, hlast, Option.some_or]

namespace Intact

/-- A head after a step is a row that the step wrote, or it was the head before. -/
theorem head?_step (h : log.Intact) {op : Op} {n : Int} (hstep : op.Step log n log') {p : Entry}
    (hp : log'.head? name = some p) : p.revision = log.reached + 1 ∨ log.head? name = some p := by
  have hwritten : ∀ {d : Draft}, log.Continues d → (log.written d).head? name = some p →
      p.revision = log.reached + 1 ∨ log.head? name = some p := by
    intro d hd hp
    rcases hd.head?_written hp with rfl | ⟨-, hp⟩
    · exact Or.inl rfl
    · exact Or.inr hp
  cases hstep with
  | create hfree => exact hwritten (continues_birth hfree) hp
  | update hhead => exact hwritten (continues_sequel hhead) hp
  | delete hhead => exact hwritten (continues_sequel hhead) hp
  | compacted _ _ => exact Or.inr hp
  | compact _ _ => exact Or.inr (h.head?_compact hp)
  | fill _ =>
    rw [head?, chain_put_placeholder, ← head?] at hp
    exact Or.inr hp

/-- **A spent revision stays spent.** -/
theorem spent_step (h : log.Intact) {op : Op} {n : Int} (hstep : op.Step log n log')
    (hspent : log.Spent name expected) : log'.Spent name expected where
  known := Int.le_trans hspent.known (hstep.sequence_le)
  below p hp := by
    rcases h.head?_step hstep hp with hnew | hold
    · have hknown := hspent.known
      have hreached := h.reached_eq
      omega
    · exact hspent.below p hold

/-- Whoever replaces a revision spends it. -/
theorem spent_of_swaps (h : log.Intact) {op : Op} {n : Int} (hstep : op.Step log n log')
    (hswaps : op.swaps name expected = true) :
    ¬log.Spent name expected ∧ log'.Spent name expected := by
  have hwritten : ∀ {p : Entry} {deleted : Bool} {value : Octets} {lease : Int}, log.head? name =
      some p →
      ¬log.Spent name p.revision ∧
      (log.written (sequel p deleted value lease)).Spent name p.revision := by
    intro p deleted value lease hp
    have hmem := mem_chain.1 (List.mem_of_getLast? (head?_eq_some.1 hp).1)
    have hknown := h.remembered p hmem.1
    have hreached := h.reached_eq
    refine ⟨fun hspent => Int.lt_irrefl _ (hspent.below p hp),
      Int.le_trans hknown (Int.le_max_left _ _), ?_⟩
    -- the next head of the name is the row that was just written, or none
    intro q hq
    rcases (continues_sequel hp).head?_written hq with rfl | ⟨hother, -⟩
    · rw [revision_upcoming]
      omega
    · exact absurd hmem.2.1 hother
  cases hstep with
  | create _ => cases hswaps
  | @update name' p _ _ hhead =>
    simp only [Op.swaps, Bool.and_eq_true, decide_eq_true_eq] at hswaps
    obtain ⟨rfl, rfl⟩ := hswaps
    exact hwritten hhead
  | @delete name' p hhead =>
    simp only [Op.swaps, Bool.and_eq_true, decide_eq_true_eq] at hswaps
    obtain ⟨rfl, rfl⟩ := hswaps
    exact hwritten hhead
  | compacted _ _ => cases hswaps
  | compact _ _ => cases hswaps
  | fill _ => cases hswaps

/-- **A head is replaced once.** Over a whole run at most one update or deletion of a revision of a
name is taken, and none of one that is spent. -/
theorem replaced_le (h : log.Intact) (name : String) (expected : Int) (ops : List Op) :
    ((log.answers ops).filter (Op.replaced name expected)).length ≤ 1 ∧
      (log.Spent name expected →
        ((log.answers ops).filter (Op.replaced name expected)).length = 0) := by
  induction ops generalizing log with
  | nil => exact ⟨Nat.zero_le 1, fun _ => rfl⟩
  | cons op ops ih =>
    obtain ⟨honce, hnever⟩ := ih (h.perform op)
    rw [answers, List.filter_cons]
    rcases h.perform_cases op with ⟨n, log', hperform, hstep⟩ | ⟨e, hperform⟩ <;>
      rw [hperform] at honce hnever ⊢
    · by_cases hswaps : op.swaps name expected = true
      · -- the revision is spent from here on, so it was not before, and nothing later replaces it
        obtain ⟨hfresh, hspent⟩ := h.spent_of_swaps hstep hswaps
        have hrest := hnever hspent
        rw [if_pos (by simp [Op.replaced, hswaps, Except.isOk, Except.toBool]), List.length_cons,
          hrest]
        exact ⟨Nat.le_refl 1, fun hold => absurd hold hfresh⟩
      · rw [if_neg (by simp [Op.replaced, hswaps])]
        exact ⟨honce, fun hold => hnever (h.spent_step hstep hold)⟩
    · rw [if_neg (by simp [Op.replaced, Except.isOk, Except.toBool])]
      exact ⟨honce, hnever⟩

end Intact

/-- **Compare and swap is exact.** In every state that a run reaches with ids left, the current read
of a name answers, and it decides the three writes; and over the whole run at most one update or
deletion of a revision of a name is taken. -/
theorem Start.compare_and_swap {log : Log} (h : log.Start) (ops : List Op) (name : String) :
    (∀ db : Database, db.log = some (log.play ops) →
      (log.play ops).sequence.getD 0 < Revision.greatest →
      ∃ head, Store.get (log.play ops) name 0 = .ok head ∧
        (∀ value lease, (Op.create name value lease).IsDecidedBy db (head = none)) ∧
        (∀ value expected lease,
          (Op.update name value expected lease).IsDecidedBy db
            (head.map Entry.revision = some expected)) ∧
        ∀ expected,
          (Op.delete name expected).IsDecidedBy db (head.map Entry.revision = some expected)) ∧
      ∀ expected, ((log.answers ops).filter (Op.replaced name expected)).length ≤ 1 := by
  refine ⟨?_, fun expected => (h.intact.replaced_le name expected ops).1⟩
  intro db hdb hleft
  have hreached := h.intact.play ops
  refine ⟨(log.play ops).head? name, hreached.get_zero name, ?_, ?_, ?_⟩
  · exact hreached.create_decided hleft hdb name
  · intro value expected lease
    exact hreached.swap_decided hleft hdb (update_eq_swap _ name value expected lease)
  · intro expected
    exact hreached.swap_decided hleft hdb (delete_eq_swap _ name expected)

/-- The head of a key is decided on after its history was compacted away and a placeholder was put
above it. -/
theorem Start.exists_compare_and_swap : ∃ (log : Log) (ops : List Op) (db : Database), log.Start ∧
    ops =
      [.create "a" [1] 0, .update "a" [2] 1 0, .update "a" [3] 1 0, .compact 2,
        .fill 5 (by decide)] ∧
    db.log = some (log.play ops) ∧ (log.play ops).sequence.getD 0 < Revision.greatest ∧
    (∃ head, Store.get (log.play ops) "a" 0 = .ok head ∧
      (∀ value lease, (Op.create "a" value lease).IsDecidedBy db (head = none)) ∧
      (∀ value expected lease,
        (Op.update "a" value expected lease).IsDecidedBy db
          (head.map Entry.revision = some expected)) ∧
      ∀ expected,
        (Op.delete "a" expected).IsDecidedBy db (head.map Entry.revision = some expected)) ∧
    ∀ expected, ((log.answers ops).filter (Op.replaced "a" expected)).length ≤ 1 := by
  have hleft : (Log.play { indexing := .linkFirst } [.create "a" [1] 0, .update "a" [2] 1 0,
      .update "a" [3] 1 0, .compact 2, .fill 5 (by decide)]).sequence.getD 0 <
        Revision.greatest := by
    decide +kernel
  obtain ⟨hdecided, honce⟩ := Start.empty.compare_and_swap [.create "a" [1] 0, .update "a" [2] 1 0,
    .update "a" [3] 1 0, .compact 2, .fill 5 (by decide)] "a"
  exact ⟨_, _, { log := some _ }, .empty, rfl, rfl, hleft, hdecided { log := some _ } rfl hleft,
    honce⟩

end Log

end RevisionLog
