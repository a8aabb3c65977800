import Mathlib.Data.String.Basic
import RevisionLog.Proofs.Agreement

/-!
# Runs without their compactions

A run is told once more with all its compactions left out, and what is answered agrees.

* `Log.Twin` — two logs with the same history, of which the second one was never compacted.
* `Log.Twin.on` — whatever is asked of both, they agree and stay twins.
* `Log.exchanges_erased` — the two runs agree; `Log.exists_overlong` — where patterns are too long
  they may differ.
-/

namespace RevisionLog

open Store

namespace Log

/-- Two logs with the same history, of which the second one was never compacted. -/
structure Twin (a b : Log) (ws : List Write) : Prop where
  left : a.Faithful ws
  right : b.Faithful ws
  sequence : a.sequence.getD 0 = b.sequence.getD 0
  leftAbreast : a.Abreast
  rightAbreast : b.Abreast
  floor : b.floor = 0
  /-- what is left in the first log is there in the second one -/
  resembled : ∀ e ∈ a.entries, ∃ f ∈ b.entries, e.Resembles b f

theorem twin_empty : Twin { indexing := .linkFirst } { indexing := .linkFirst } [] where
  left := faithful_empty
  right := faithful_empty
  sequence := rfl
  leftAbreast := abreast_empty _
  rightAbreast := abreast_empty _
  floor := rfl
  resembled e he := by cases he

namespace Twin

variable {a b a' b' : Log} {ws : List Write} {name : String} {revision : Int}

theorem current_eq (h : a.Twin b ws) : a.current = b.current := by
  rw [h.leftAbreast, h.rightAbreast, h.sequence]

theorem reached_eq (h : a.Twin b ws) : a.reached = b.reached := by
  rw [h.left.reached_eq, h.right.reached_eq, h.sequence]

theorem currentRevision_eq (h : a.Twin b ws) :
    Store.currentRevision a = Store.currentRevision b := by
  rw [h.left.store_currentRevision, h.right.store_currentRevision, h.current_eq]

/-! ## Reads -/

/-- An entry that has the revision of one in the first log is the one in the second log that it
resembles. -/
theorem resembles (h : a.Twin b ws) {e f : Entry} (he : e ∈ a.entries) (hf : f ∈ b.entries)
    (hrev : e.revision = f.revision) : e.Resembles b f := by
  obtain ⟨g, hg, hresembles⟩ := h.resembled e he
  have hgf : g = f := eq_of_revision_eq hg hf (by rw [← hresembles.revision_eq, hrev])
  exact hgf ▸ hresembles

theorem map_liveAt? (h : a.Twin b ws) (hfloor : a.floor ≤ revision) (name : String) :
    (a.liveAt? name revision).map Entry.unlinked =
      (b.liveAt? name revision).map Entry.unlinked := by
  have hnonneg := h.left.floor_nonneg
  have hright := h.floor
  exact (h.left.read_eq hfloor name).trans (h.right.read_eq (by omega) name).symm

/-- **The live states resemble each other.** -/
theorem liveAt?_cases (h : a.Twin b ws) (hfloor : a.floor ≤ revision) (name : String) :
    (a.liveAt? name revision = none ∧ b.liveAt? name revision = none) ∨
      ∃ e f, a.liveAt? name revision = some e ∧ b.liveAt? name revision = some f ∧
        e.Resembles b f := by
  have hmap := h.map_liveAt? hfloor name
  rcases hleft : a.liveAt? name revision with _ | e <;>
    rcases hright : b.liveAt? name revision with _ | f <;> rw [hleft, hright] at hmap
  · exact Or.inl ⟨rfl, rfl⟩
  · cases hmap
  · cases hmap
  · have hunlinked : e.unlinked = f.unlinked := Option.some.inj hmap
    refine Or.inr ⟨e, f, rfl, rfl, h.resembles (mem_chain.1 (liveAt?_eq_some.1 hleft).1).1
      (mem_chain.1 (liveAt?_eq_some.1 hright).1).1 ?_⟩
    show e.unlinked.revision = f.unlinked.revision
    rw [hunlinked]

theorem forall₂_standing (h : a.Twin b ws) (hfloor : a.floor ≤ revision) (pattern : String) :
    List.Forall₂ (Entry.Resembles b) (a.standing pattern revision)
      (b.standing pattern revision) := by
  refine forall₂_of_pairwise (fun _ _ hresembles => hresembles.revision_eq)
    (a.pairwise_entries.filter _) (b.pairwise_entries.filter _) ?_ ?_
  · intro e he
    obtain ⟨hlive, hselected⟩ := mem_standing.1 he
    rcases h.liveAt?_cases hfloor e.name with ⟨hnone, -⟩ | ⟨e', f, hleft, hright, hresembles⟩
    · rw [hnone] at hlive
      cases hlive
    · rw [hleft] at hlive
      obtain rfl := Option.some.inj hlive
      have hname := hresembles.name_eq
      exact ⟨f, mem_standing.2 ⟨hname ▸ hright, hname ▸ hselected⟩, hresembles⟩
  · intro f hf
    obtain ⟨hlive, hselected⟩ := mem_standing.1 hf
    rcases h.liveAt?_cases hfloor f.name with ⟨-, hnone⟩ | ⟨e, f', hleft, hright, hresembles⟩
    · rw [hnone] at hlive
      cases hlive
    · rw [hright] at hlive
      obtain rfl := Option.some.inj hlive
      have hname := hresembles.name_eq.symm
      exact ⟨e, mem_standing.2 ⟨hname ▸ hleft, hname ▸ hselected⟩, hresembles⟩

/-- A revision is read at in both logs, or refused by both, or the first one does not look back
so far. -/
theorem resolve (h : a.Twin b ws) (revision : Int) :
    (∃ at', Store.resolve a revision = .ok at' ∧ Store.resolve b revision = .ok at' ∧
      a.floor ≤ at') ∨
      (∃ e, Store.resolve a revision = .error e ∧ Store.resolve b revision = .error e) ∨
      ∃ requested watermark, Store.resolve a revision =
        .error (.compacted requested watermark) := by
  have hleft := h.left.resolve_eq revision
  have hright := h.right.resolve_eq revision
  rw [← h.current_eq] at hright
  by_cases hzero : revision = 0
  · rw [if_pos hzero] at hleft hright
    exact Or.inl ⟨_, hleft, hright, a.floor_le_current⟩
  · rw [if_neg hzero] at hleft hright
    by_cases hfuture : a.current < revision
    · rw [if_pos hfuture] at hleft hright
      exact Or.inr (Or.inl ⟨_, hleft, hright⟩)
    · rw [if_neg hfuture] at hleft hright
      by_cases hbelow : revision < a.floor
      · rw [if_pos hbelow] at hleft
        exact Or.inr (Or.inr ⟨_, _, hleft⟩)
      · have hnonneg := h.left.floor_nonneg
        have hzero := h.floor
        rw [if_neg hbelow] at hleft
        rw [if_neg (by omega)] at hright
        exact Or.inl ⟨revision, hleft, hright, Int.not_lt.1 hbelow⟩

theorem get (h : a.Twin b ws) (name : String) (revision : Int) :
    Answer.Agrees b (.get name revision) (.entry (Store.get a name revision))
      (.entry (Store.get b name revision)) := by
  rcases h.resolve revision with ⟨at', hleft, hright, hfloor⟩ | ⟨e, hleft, hright⟩ |
    ⟨requested, watermark, hleft⟩
  · rw [h.left.get_eq name hleft, h.right.get_eq name hright]
    rcases h.liveAt?_cases hfloor name with ⟨ha, hb⟩ | ⟨e, f, ha, hb, hresembles⟩
    · rw [← Log.liveAt?, ← Log.liveAt?, ha, hb]
      exact .same _ _
    · rw [← Log.liveAt?, ← Log.liveAt?, ha, hb]
      exact .get hresembles
  · rw [Store.get, Store.get, hleft, hright]
    exact .same _ _
  · rw [Store.get, hleft]
    exact .getCompacted _

/-- What is too long for the first log is too long for the second one. -/
theorem overlong (h : a.Twin b ws) {pattern : String} (hlong : a.Overlong pattern revision) :
    b.Overlong pattern revision := by
  obtain ⟨hsize, e, he, -⟩ := hlong
  obtain ⟨f, hf, -⟩ := h.resembled e he
  exact ⟨hsize, f, hf, Or.inl (by rw [h.right.indexed]; decide)⟩

/-- Where only the second log has something to match there is nothing in the first one. -/
theorem standing_eq_nil {pattern : String} (hsize : Pattern.sizeLimit < pattern.utf8ByteSize)
    (hshort : ¬a.Overlong pattern revision) : a.standing pattern revision = [] := by
  refine List.filter_eq_nil_iff.2 fun e he hstands => hshort ⟨hsize, e, he, ?_⟩
  rw [Bool.and_eq_true, decide_eq_true_eq] at hstands
  exact Or.inr (liveAt?_eq_some.1 hstands.1).2.1

theorem list (h : a.Twin b ws) (start : String) (limit : Nat) (revision : Int) :
    Answer.Agrees b (.list start limit revision) (.entries (Store.list a start limit revision))
      (.entries (Store.list b start limit revision)) := by
  rcases h.resolve revision with ⟨at', hleft, hright, hfloor⟩ | ⟨e, hleft, hright⟩ |
    ⟨requested, watermark, hleft⟩
  · rw [h.left.list_eq start limit hleft, h.right.list_eq start limit hright]
    by_cases hlimit : Revision.greatest < (limit : Int)
    · rw [if_pos hlimit, if_pos hlimit]
      exact .same _ _
    · rw [if_neg hlimit, if_neg hlimit]
      by_cases hlong : b.Overlong (Pattern.ofPrefix start) at'
      · rw [if_pos hlong]
        by_cases hlong' : a.Overlong (Pattern.ofPrefix start) at'
        · rw [if_pos hlong']
          exact .same _ _
        · rw [if_neg hlong', standing_eq_nil hlong.1 hlong', first_byNames_nil]
          exact .listOverlong hlong.1
      · rw [if_neg hlong, if_neg fun hlong' => hlong (h.overlong hlong')]
        exact .list (forall₂_first (forall₂_byNames (h.forall₂_standing hfloor _)) limit)
  · rw [list_of_refused hleft, list_of_refused hright]
    exact .same _ _
  · rw [list_of_refused hleft]
    exact .listCompacted _

theorem count (h : a.Twin b ws) (start : String) (revision : Int) :
    Answer.Agrees b (.count start revision) (.counted (Store.count a start revision))
      (.counted (Store.count b start revision)) := by
  rcases h.resolve revision with ⟨at', hleft, hright, hfloor⟩ | ⟨e, hleft, hright⟩ |
    ⟨requested, watermark, hleft⟩
  · rw [h.left.count_eq start hleft, h.right.count_eq start hright]
    by_cases hlong : b.Overlong (Pattern.ofPrefix start) at'
    · rw [if_pos hlong]
      by_cases hlong' : a.Overlong (Pattern.ofPrefix start) at'
      · rw [if_pos hlong']
        exact .same _ _
      · rw [if_neg hlong', standing_eq_nil hlong.1 hlong']
        exact .countOverlong hlong.1
    · rw [if_neg hlong, if_neg fun hlong' => hlong (h.overlong hlong'), h.current_eq,
        (h.forall₂_standing hfloor _).length_eq]
      exact .same _ _
  · rw [h.left.count_of_refused hleft, h.right.count_of_refused hright]
    exact .same _ _
  · rw [h.left.count_of_refused hleft]
    exact .countCompacted _

/-! ## Writes -/

/-- The heads resemble each other. -/
theorem head?_cases (h : a.Twin b ws) (name : String) :
    (a.head? name = none ∧ b.head? name = none) ∨
      ∃ p q, a.head? name = some p ∧ b.head? name = some q ∧ p.Resembles b q := by
  have hlive := h.liveAt?_cases a.floor_le_current name
  rwa [a.liveAt?_current, h.current_eq, b.liveAt?_current] at hlive

/-- **A step that both logs take keeps them twins**, if what is written resembles each other. -/
theorem step (h : a.Twin b ws) {op : Op} {n : Int} (ha : op.Step a n a') (hb : op.Step b n b')
    (hsequence : a'.sequence.getD 0 = b'.sequence.getD 0) (hfloor : b'.floor = b.floor)
    (hresembled : ∀ e ∈ a'.entries, ∃ f ∈ b'.entries, e.Resembles b' f) :
    a'.Twin b' (ws ++ (op.write? n).toList) where
  left := h.left.step ha
  right := h.right.step hb
  sequence := hsequence
  leftAbreast := h.left.abreast_step ha h.leftAbreast
  rightAbreast := h.right.abreast_step hb h.rightAbreast
  floor := hfloor.trans h.floor
  resembled := hresembled

/-- A row is written to both logs, if an id is left. -/
theorem append (h : a.Twin b ws) {op : Op} {d d' : Draft} (hd : op.on a = ask (a.append d))
    (hd' : op.on b = ask (b.append d'))
    (hresembles : (a.upcoming d).Resembles (b.written d') (b.upcoming d')) :
    (∃ ws', (op.perform a).2.Twin (op.perform b).2 ws') ∧ (op.perform a).1 = (op.perform b).1 := by
  have hreached := h.reached_eq
  by_cases hlt : a.reached < Revision.greatest
  · have hleft : op.on a = .ok (a.reached + 1, a.written d) := by
      rw [hd, Log.append, if_pos hlt]
      rfl
    have hright : op.on b = .ok (a.reached + 1, b.written d') := by
      rw [hd', Log.append, if_pos (hreached ▸ hlt), hreached]
      rfl
    simp only [Op.perform, hleft, hright]
    refine ⟨⟨_, h.step (h.left.step_of_on hleft) (h.right.step_of_on hright) ?_ rfl ?_⟩, trivial⟩
    · show max (a.sequence.getD 0) (a.reached + 1) = max (b.sequence.getD 0) (b.reached + 1)
      rw [h.sequence, hreached]
    · refine forall_entries_put ⟨_, mem_entries_put.2 (Or.inl rfl), hresembles⟩ ?_
      intro e he
      obtain ⟨f, hf, hold⟩ := h.resembled e he
      exact ⟨f, mem_entries_put.2 (Or.inr hf), hold.mono fun g hg => mem_entries_put.2 (Or.inr hg)⟩
  · have hleft : op.on a = .error (.ofFault .full) := by
      rw [hd, Log.append, if_neg hlt]
      rfl
    have hright : op.on b = .error (.ofFault .full) := by
      rw [hd', Log.append, if_neg (hreached ▸ hlt)]
      rfl
    simp only [Op.perform, hleft, hright]
    exact ⟨⟨ws, h⟩, trivial⟩

/-- A name without states in the second log has none in the first one. -/
theorem chain_eq_nil (h : a.Twin b ws) (hnil : b.chain name = []) : a.chain name = [] := by
  refine List.eq_nil_iff_forall_not_mem.2 fun e he => ?_
  obtain ⟨hmem, hname, hgap⟩ := mem_chain.1 he
  obtain ⟨f, hf, hresembles⟩ := h.resembled e hmem
  have hfgap : f.isGap = e.isGap := by
    show f.unlinked.isGap = e.unlinked.isGap
    rw [hresembles.unlinked_eq]
  have hchain : f ∈ b.chain name := mem_chain.2 ⟨hf, hresembles.name_eq ▸ hname, hfgap.trans hgap⟩
  rw [hnil] at hchain
  cases hchain

/-- The last states of a name in both logs have the same revision. -/
theorem revision_last (h : a.Twin b ws) {p q : Entry} (hp : (a.chain name).getLast? = some p)
    (hq : (b.chain name).getLast? = some q) : p.revision = q.revision := by
  have hleft := h.left.state?_of_getLast? hp
  have hright := h.right.state?_of_getLast? hq
  rw [h.sequence, hright] at hleft
  show p.unlinked.revision = q.unlinked.revision
  rw [Option.some.inj hleft]

/-- **New lives resemble each other.** If the tombstone is gone from the first log, the link to it
is lost. -/
theorem resembles_birth (h : a.Twin b ws) (hfree : b.head? name = none) (value : Octets)
    (lease : Int) :
    (a.upcoming (a.birth name value lease)).Resembles (b.written (b.birth name value lease))
      (b.upcoming (b.birth name value lease)) := by
  rw [upcoming_birth, upcoming_birth, h.reached_eq]
  rcases hq : (b.chain name).getLast? with _ | q
  · rw [h.chain_eq_nil (List.getLast?_eq_none_iff.1 hq)]
    exact Or.inl rfl
  · rcases hp : (a.chain name).getLast? with _ | p
    · -- compaction took away the tombstone, which is still the last state in the second log
      have hmem := List.mem_of_getLast? hq
      have hdeleted : q.deleted = true := by
        rw [head?, hq, Option.filter_eq_none_iff] at hfree
        simpa using hfree q rfl
      refine Or.inr ⟨rfl, rfl, q, ?_, rfl, hdeleted⟩
      rw [(continues_birth hfree).chain_written, upcoming_birth, if_pos rfl]
      exact List.mem_append_left _ hmem
    · rw [Option.map_some, Option.map_some, h.revision_last hp hq]
      exact Or.inl rfl

theorem create (h : a.Twin b ws) (name : String) (value : Octets) (lease : Int) :
    (∃ ws', ((Op.create name value lease).perform a).2.Twin
      ((Op.create name value lease).perform b).2 ws') ∧
      ((Op.create name value lease).perform a).1 = ((Op.create name value lease).perform b).1 := by
  have hleft : (Op.create name value lease).on a = _ := h.left.create_eq name value lease
  have hright : (Op.create name value lease).on b = _ := h.right.create_eq name value lease
  rcases h.head?_cases name with ⟨ha, hb⟩ | ⟨p, q, ha, hb, -⟩
  · rw [if_pos ha] at hleft
    rw [if_pos hb] at hright
    exact h.append hleft hright (h.resembles_birth hb value lease)
  · rw [if_neg (by rw [ha]; simp)] at hleft
    rw [if_neg (by rw [hb]; simp)] at hright
    simp only [Op.perform, hleft, hright]
    exact ⟨⟨ws, h⟩, trivial⟩

/-- States that resemble each other have the same sequels. -/
theorem sequel_eq {p q : Entry} (hresembles : p.Resembles b q) (deleted : Bool) (value : Octets)
    (lease : Int) : sequel p deleted value lease = sequel q deleted value lease := by
  show sequel p.unlinked deleted value lease = sequel q.unlinked deleted value lease
  rw [hresembles.unlinked_eq]

/-- An update or a deletion is taken by both logs or by none. -/
theorem swap (h : a.Twin b ws) {r : Request} {deleted : Bool} {value : Octets}
    {expected lease : Int}
    (hswap : ∀ log : Log, r.op.on log = log.swap name deleted value expected lease) :
    (∃ ws', (r.op.perform a).2.Twin (r.op.perform b).2 ws') ∧
      Answer.Agrees (r.op.perform b).2 (.request r) (.number (r.op.perform a).1)
        (.number (r.op.perform b).1) := by
  by_cases hnamed : ∃ p, a.head? name = some p ∧ p.revision = expected
  · obtain ⟨p, ha, rfl⟩ := hnamed
    rcases h.head?_cases name with ⟨hnone, -⟩ | ⟨p', q, ha', hb, hresembles⟩
    · rw [hnone] at ha
      cases ha
    · rw [ha] at ha'
      obtain rfl := Option.some.inj ha'
      have hright := hswap b
      rw [hresembles.revision_eq, h.right.swap_head hb, ← sequel_eq hresembles] at hright
      obtain ⟨htwin, hanswer⟩ :=
        h.append ((hswap a).trans (h.left.swap_head ha deleted value lease)) hright
        (Or.inl (by rw [upcoming, upcoming, h.reached_eq]))
      rw [hanswer]
      exact ⟨htwin, .same _ _⟩
  · have hstale : ∀ p, a.head? name = some p → p.revision ≠ expected :=
      fun p hp hrev => hnamed ⟨p, hp, hrev⟩
    have hstale' : ∀ q, b.head? name = some q → q.revision ≠ expected := by
      intro q hq
      rcases h.head?_cases name with ⟨-, hnone⟩ | ⟨p, q', ha, hb, hresembles⟩
      · rw [hnone] at hq
        cases hq
      · rw [hq] at hb
        obtain rfl := Option.some.inj hb
        exact hresembles.revision_eq ▸ hstale p ha
    obtain ⟨e, hleft, hwhy⟩ := h.left.swap_stale h.left.indexed hstale deleted value lease
    obtain ⟨e', hright, hwhy'⟩ := h.right.swap_stale h.right.indexed hstale' deleted value lease
    simp only [Op.perform, hswap, hleft, hright]
    refine ⟨⟨ws, h⟩, ?_⟩
    -- only where no id is left may the two be refused for different reasons
    by_cases hlt : b.reached < Revision.greatest
    · rw [hwhy (h.reached_eq ▸ hlt), hwhy' hlt]
      exact .same _ _
    · refine .exhausted h.right.store_currentRevision ?_
      rw [h.rightAbreast, ← h.right.reached_eq]
      exact Int.not_lt.1 hlt

/-- **A compaction of the first log keeps the logs twins.** -/
theorem compact (h : a.Twin b ws) (revision : Int) :
    ((Op.compact revision).perform a).2.Twin b ws := by
  rcases h.left.perform_cases (.compact revision) with ⟨n, a', hperform, hstep⟩ | ⟨e, hperform⟩ <;>
    rw [hperform]
  · have hleft := h.left.step hstep
    rw [Op.write?, Option.toList_none, List.append_nil] at hleft
    refine ⟨hleft, h.right, ?_, h.left.abreast_step hstep h.leftAbreast, h.rightAbreast, h.floor,
      ?_⟩
    · cases hstep with
      | compacted _ _ => exact h.sequence
      | compact _ _ => exact h.sequence
    · intro e he
      cases hstep with
      | compacted _ _ => exact h.resembled e he
      | compact _ _ => exact h.resembled e (h.left.mem_entries_compact.1 he).1
  · exact h

/-! ## Runs -/

/-- **Whatever is asked of both logs, they agree and stay twins.** -/
theorem on (h : a.Twin b ws) {ask : Ask} (hask : ask.isCompact = false) :
    (∃ ws', (ask.on a).2.Twin (ask.on b).2 ws') ∧
    Answer.Agrees (ask.on b).2 ask (ask.on a).1 (ask.on b).1 := by
  cases ask with
  | get name revision => exact ⟨⟨ws, h⟩, h.get name revision⟩
  | list start limit revision => exact ⟨⟨ws, h⟩, h.list start limit revision⟩
  | count start revision => exact ⟨⟨ws, h⟩, h.count start revision⟩
  | currentRevision =>
    simp only [Ask.on, h.currentRevision_eq]
    exact ⟨⟨ws, h⟩, .same _ _⟩
  | request r =>
    cases r with
    | create name value lease =>
      obtain ⟨htwin, hanswer⟩ := h.create name value lease
      refine ⟨htwin, ?_⟩
      simp only [Ask.on, Request.op, hanswer]
      exact .same _ _
    | update name value expected lease =>
      exact h.swap fun log => log.update_eq_swap name value expected lease
    | delete name expected => exact h.swap fun log => log.delete_eq_swap name expected
    | compact revision => cases hask

/-- A run with compactions agrees with the run without. -/
theorem exchanges (h : a.Twin b ws) (asks : List Ask) :
    List.Forall₂ Exchange.Agrees ((a.exchanges asks).filter fun x => !x.ask.isCompact)
      (b.exchanges (asks.filter fun ask => !ask.isCompact)) := by
  induction asks generalizing a b ws with
  | nil => exact .nil
  | cons ask asks ih =>
    rw [Log.exchanges]
    rcases hask : ask.isCompact with _ | _
    · obtain ⟨⟨ws', htwin⟩, hanswer⟩ := h.on hask
      rw [List.filter_cons_of_pos (by rw [hask]; rfl), List.filter_cons_of_pos (by rw [hask]; rfl),
        Log.exchanges]
      exact .cons ⟨rfl, htwin.currentRevision_eq, hanswer⟩ (ih htwin)
    · -- the second run does nothing while the first one compacts
      rw [List.filter_cons_of_neg (by simp [hask]), List.filter_cons_of_neg (by simp [hask])]
      cases ask with
      | request r =>
        cases r with
        | compact revision => exact ih (h.compact revision)
        | _ => cases hask
      | _ => cases hask

end Twin

/-- **Compaction is invisible to everything that still gets an answer.** A run from an empty log
agrees with the same run without its compactions, in all that was answered but compactions. -/
theorem exchanges_erased (asks : List Ask) :
    List.Forall₂ Exchange.Agrees
      ((exchanges { indexing := .linkFirst } asks).filter fun x => !x.ask.isCompact)
      (exchanges { indexing := .linkFirst } (asks.filter fun ask => !ask.isCompact)) :=
  twin_empty.exchanges asks

/-- A text that is longer than patterns may be. -/
def overlongStart : String := String.ofList (List.replicate Pattern.sizeLimit 'a')

theorem sizeLimit_lt_ofPrefix_overlongStart :
    Pattern.sizeLimit < (Pattern.ofPrefix overlongStart).utf8ByteSize := by
  have hescape : ∀ n, Pattern.escape (List.replicate n 'a') = List.replicate n 'a' := by
    intro n
    induction n with
    | zero => rfl
    | succ n ih =>
      rw [List.replicate_succ, Pattern.escape, if_neg (by decide), ih]
  have hlength : ∀ n, String.utf8Len (List.replicate n 'a' ++ ['%']) = n + 1 := by
    intro n
    induction n with
    | zero => rfl
    | succ n ih => rw [List.replicate_succ, List.cons_append, String.utf8Len, ih]; rfl
  rw [Pattern.ofPrefix, overlongStart, String.toList_ofList, hescape, String.utf8ByteSize_ofList,
    hlength]
  exact Nat.lt_succ_self _

/-- **A pattern that is too long may tell two runs apart.** Once the only key is compacted away
there is nothing to match, and the list is empty; without the compaction the engine refuses to match
the pattern. -/
theorem exists_overlong : ∃ asks : List Ask,
    asks =
      [.request (.create "a" [] 0), .request (.delete "a" 1), .request (.compact 2),
        .list overlongStart 0 0] ∧
    ((exchanges { indexing := .linkFirst } asks).getLast?.map Exchange.answer =
      some (.entries (.ok []))) ∧
    ((exchanges { indexing := .linkFirst } (asks.filter fun ask => !ask.isCompact)).getLast?.map
      Exchange.answer = some (.entries (.error (.ofFault .longPattern)))) := by
  have htidy : ∀ ops, (Log.play { indexing := .linkFirst } ops).Tidy := fun ops =>
    (faithful_empty.play ops).toTidy
  have hresolve : ∀ log : Log, log.Tidy → Store.resolve log 0 = .ok log.current := fun log h => by
    rw [h.resolve_eq, if_pos rfl]
  refine ⟨_, rfl, ?_, ?_⟩
  · have hleft := htidy [.create "a" [] 0, .delete "a" 1, .compact 2]
    have hempty :
        (Log.play { indexing := .linkFirst } [.create "a" [] 0, .delete "a" 1,
          .compact 2]).entries = [] := by
      decide +kernel
    have hlist := hleft.list_eq overlongStart 0 (hresolve _ hleft)
    have hshort : ∀ pattern revision, ¬(Log.play { indexing := .linkFirst }
        [.create "a" [] 0, .delete "a" 1, .compact 2]).Overlong pattern revision := by
      rintro pattern revision ⟨-, e, he, -⟩
      rw [hempty] at he
      cases he
    rw [if_neg (by decide), if_neg (hshort _ _), standing, hempty, List.filter_nil,
      first_byNames_nil] at hlist
    exact congrArg (fun answer => some (Answer.entries answer)) hlist
  · have hright := htidy [.create "a" [] 0, .delete "a" 1]
    have hlist := hright.list_eq overlongStart 0 (hresolve _ hright)
    have hrow :
        ∃ e ∈ (Log.play { indexing := .linkFirst } [.create "a" [] 0, .delete "a" 1]).entries,
          (Log.play { indexing := .linkFirst } [.create "a" [] 0, .delete "a" 1]).indexing ≠
              .unindexed ∨
            e.revision ≤
              (Log.play { indexing := .linkFirst } [.create "a" [] 0, .delete "a" 1]).current := by
      decide +kernel
    rw [if_neg (by decide), if_pos ⟨sizeLimit_lt_ofPrefix_overlongStart, hrow⟩] at hlist
    exact congrArg (fun answer => some (Answer.entries answer)) hlist

end Log

end RevisionLog
