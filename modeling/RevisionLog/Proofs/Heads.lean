import RevisionLog.Proofs.Forgetting

/-!
# Heads of names

The head of a name is its last state, if that is not a deletion: it is what a read of the current
revision answers, and what an update or a deletion of the name has to name. A sound log with unique
links takes exactly those.

* `Log.head?` — the head of a name.
* `Log.Sound.written` — a row that extends the chain of its name keeps a log sound.
* `Log.Sound.create_eq` — a creation is taken exactly where there is no head.
* `Log.Sound.swap_head`, `swap_stale` — an update or a deletion is taken exactly where it names the
  head.
-/

namespace RevisionLog

open Store

namespace Log

/-- The last state of a name, if it is not a deletion. -/
def head? (log : Log) (name : String) : Option Entry :=
  (log.chain name).getLast?.filter fun e => !e.deleted

theorem head?_eq_some {log : Log} {name : String} {p : Entry} :
    log.head? name = some p ↔ (log.chain name).getLast? = some p ∧ p.deleted = false := by
  rw [head?, Option.filter_eq_some_iff, Bool.not_eq_true']

/-- A read of the current revision answers the head. -/
theorem Tidy.get_zero {log : Log} (h : log.Tidy) (name : String) :
    Store.get log name 0 = .ok (log.head? name) := by
  rw [h.get_eq name (by rw [h.resolve_eq, if_pos rfl]), log.filter_chain_current, head?]

/-! ## Drafts of states -/

/-- The draft of a new life of a name. It follows the last state there is. -/
def birth (log : Log) (name : String) (value : Octets) (lease : Int) : Draft :=
  .ofUser name true false 0 (((log.chain name).getLast?.map Entry.revision).getD 0) lease value []

/-- The draft of a state that goes on with the life of a state, or ends it. -/
def sequel (p : Entry) (deleted : Bool) (value : Octets) (lease : Int) : Draft :=
  .ofUser p.name false deleted p.createRevision p.revision lease value p.value

theorem isUsers_birth (log : Log) (name : String) (value : Octets) (lease : Int) :
    (log.birth name value lease).IsUsers := ⟨_, _, _, _, _, _, _, _, rfl⟩

theorem isUsers_sequel (p : Entry) (deleted : Bool) (value : Octets) (lease : Int) :
    (sequel p deleted value lease).IsUsers := ⟨_, _, _, _, _, _, _, _, rfl⟩

theorem upcoming_birth (log : Log) (name : String) (value : Octets) (lease : Int) :
    log.upcoming (log.birth name value lease) =
      { revision := log.reached + 1, name, created := true, deleted := false,
        createRevision := log.reached + 1
        prevRevision := ((log.chain name).getLast?.map Entry.revision).getD 0, lease, value,
            oldValue := [] } := by
  rw [upcoming, birth, Draft.toEntry_ofUser]
  rfl

theorem upcoming_sequel (log : Log) (p : Entry) (deleted : Bool) (value : Octets) (lease : Int) :
    log.upcoming (sequel p deleted value lease) =
      { revision := log.reached + 1, name := p.name, created := false, deleted,
        createRevision := p.createRevision
        prevRevision := p.revision, lease, value, oldValue := p.value } := by
  rw [upcoming, sequel, Draft.toEntry_ofUser]
  rfl

/-- What a draft becomes is fit to come next in the chain of its name, and is no placeholder. -/
structure Continues (log : Log) (d : Draft) : Prop where
  users : d.IsUsers
  gap : (log.upcoming d).isGap = false
  born : (log.upcoming d).IsBorn
  extends' : (log.upcoming d).Extends (log.chain (log.upcoming d).name)

variable {log : Log}

/-- A new life may begin where there is no head. -/
theorem continues_birth {name : String} {value : Octets} {lease : Int}
    (hfree : log.head? name = none) : log.Continues (log.birth name value lease) := by
  refine ⟨log.isUsers_birth name value lease, ?_, ?_, ?_⟩ <;> rw [upcoming_birth]
  · rfl
  · exact fun _ => ⟨rfl, rfl⟩
  · rw [Entry.Extends]
    rcases hlast : (log.chain name).getLast? with _ | p
    · rfl
    · have hdeleted : p.deleted = true := by
        rw [head?, hlast, Option.filter_eq_none_iff] at hfree
        simpa using hfree p rfl
      exact ⟨rfl, hdeleted.symm, fun hcreated => (by cases hcreated),
        fun hcreated => (by cases hcreated)⟩

/-- The life of a head may go on or end. -/
theorem continues_sequel {name : String} {p : Entry} {deleted : Bool} {value : Octets} {lease : Int}
    (hhead : log.head? name = some p) : log.Continues (sequel p deleted value lease) := by
  obtain ⟨hlast, hlive⟩ := head?_eq_some.1 hhead
  obtain rfl := (mem_chain.1 (List.mem_of_getLast? hlast)).2.1
  refine ⟨isUsers_sequel p deleted value lease, ?_, ?_, ?_⟩ <;> rw [upcoming_sequel]
  · rfl
  · exact fun hcreated => by cases hcreated
  · rw [Entry.Extends, hlast]
    exact ⟨rfl, hlive.symm, fun _ => rfl, fun _ => rfl⟩

/-- The chain of its name after a row that continues it. -/
theorem Continues.chain_written {d : Draft} (hd : log.Continues d) (name : String) :
    (log.written d).chain name =
      if (log.upcoming d).name = name then log.chain name ++ [log.upcoming d]
          else log.chain name := by
  split
  · next hname =>
    subst hname
    refine chain_put_self ?_ hd.gap
    intro s hs
    have := id_le_reached hs
    show s.id < log.reached + 1
    omega
  · next hname =>
      exact chain_put_of_neg (by simpa [Entry.isStateOf, upcoming] using fun hn => absurd hn hname)

/-- An update and a deletion are one operation, which names the state that it replaces. -/
def swap (log : Log) (name : String) (deleted : Bool) (value : Octets) (expected lease : Int) :
    Except Error (Int × Log) := do
  let prior ← liveEntry log name expected
  ask (log.insert
    (.ofUser name false deleted prior.createRevision prior.revision lease value prior.value))

theorem update_eq_swap (log : Log) (name : String) (value : Octets) (expected lease : Int) :
    Store.update log name value expected lease = log.swap name false value expected lease := rfl

theorem delete_eq_swap (log : Log) (name : String) (expected : Int) :
    Store.delete log name expected = log.swap name true [] expected 0 := rfl

namespace Sound

/-! ## Rows that continue a chain -/

/-- A row that continues a chain is written, unless no id is left. -/
theorem insert_eq (h : log.Sound) {d : Draft} (hd : log.Continues d) :
    log.insert d = log.append d := by
  refine insert_of_users hd.users (linkClash?_eq_none ?_)
  intro s hs
  rw [(hd.users.isPlain _).sameLink_eq (h.plain s hs), decide_eq_false_iff_not]
  rintro ⟨hlink, hname⟩
  exact h.link_free hd.extends' (List.mem_map_of_mem hs) hname hlink

/-- **A row that continues a chain keeps a log sound.** -/
theorem written (h : log.Sound) {d : Draft} (hd : log.Continues d) : (log.written d).Sound := by
  refine h.put_state (hd.users.isPlain _) ?_ hd.gap hd.born hd.extends'
  show log.sequence.getD 0 < log.reached + 1
  have := h.reached_eq
  omega

/-! ## The three writes -/

/-- **Creation.** A name is created exactly where it has no head. -/
theorem create_eq (h : log.Sound) (name : String) (value : Octets) (lease : Int) :
    Store.create log name value lease =
      if log.head? name = none then ask (log.append (log.birth name value lease))
          else .error .keyExists := by
  rw [Store.create, h.entryOf_latest]
  split
  · next hfree =>
    rw [← h.insert_eq (continues_birth hfree), birth]
    rcases hlast : (log.chain name).getLast? with _ | p
    · rfl
    · have hdeleted : p.deleted = true := by
        rw [head?, hlast, Option.filter_eq_none_iff] at hfree
        simpa using hfree p rfl
      simp [bind, Except.bind, pure, Except.pure, hdeleted]
  · next hhead =>
    obtain ⟨p, hp⟩ := Option.ne_none_iff_exists'.1 hhead
    obtain ⟨hlast, hlive⟩ := head?_eq_some.1 hp
    simp [hlast, hlive, bind, Except.bind, throw, throwThe, MonadExceptOf.throw]

/-- Behind a state that is not the last one there is a next one. -/
theorem exists_next (h : log.Sound) {name : String} {e : Entry} (he : e ∈ log.chain name)
    (hlast : (log.chain name).getLast? ≠ some e) : ∃ f ∈ log.chain name, e.Precedes f := by
  obtain ⟨front, rest, hsplit⟩ := List.append_of_mem he
  rcases rest with _ | ⟨f, rest⟩
  · exact absurd (by rw [hsplit, List.getLast?_concat]) hlast
  · have hchain := h.chained name
    rw [hsplit, List.isChain_append_cons_cons] at hchain
    exact ⟨f, by rw [hsplit]; simp, hchain.2.1⟩

/-- An update or a deletion that names the head is taken. -/
theorem swap_head (h : log.Sound) {name : String} {p : Entry} (hhead : log.head? name = some p)
    (deleted : Bool) (value : Octets) (lease : Int) :
    log.swap name deleted value p.revision lease =
        ask (log.append (sequel p deleted value lease)) := by
  obtain ⟨hlast, hlive⟩ := head?_eq_some.1 hhead
  obtain ⟨hmem, rfl, -⟩ := mem_chain.1 (List.mem_of_getLast? hlast)
  rw [swap, h.liveEntry_of_mem hmem hlive, ← h.insert_eq (continues_sequel hhead)]
  rfl

/-- **A lost race.** An update or a deletion that does not name the head is refused. -/
theorem swap_stale (h : log.Sound) (hindex : log.indexing = .linkFirst) {name : String}
    {expected : Int} (hstale : ∀ p, log.head? name = some p → p.revision ≠ expected)
    (deleted : Bool) (value : Octets) (lease : Int) :
    ∃ e, log.swap name deleted value expected lease = .error e ∧
      (log.reached < Revision.greatest → e = .keyExists) := by
  by_cases hfound : ∃ e ∈ log.entries, e.revision = expected ∧ e.name = name ∧ e.deleted = false
  · -- the named state is there, but it has a next one, which has the link
    obtain ⟨e, hmem, rfl, rfl, hlive⟩ := hfound
    have he : e ∈ log.chain e.name :=
      mem_chain.2 ⟨hmem, rfl, by rw [Entry.isGap, hlive, Bool.and_false]⟩
    obtain ⟨f, hf, hnext⟩ := h.exists_next he fun hlast =>
      hstale e (head?_eq_some.2 ⟨hlast, hlive⟩) rfl
    obtain ⟨hfmem, hfname, -⟩ := mem_chain.1 hf
    obtain ⟨s, hs, rfl⟩ := mem_entries.1 hfmem
    have husers := isUsers_sequel e deleted value lease
    have hentry := log.upcoming_sequel e deleted value lease
    have hlink : ((sequel e deleted value lease).toRow (log.reached + 1)).sameLink s = true := by
      rw [(husers.isPlain _).sameLink_eq (h.plain s hs), decide_eq_true_iff, ← upcoming, hentry]
      exact ⟨hnext.link.symm, hfname.symm⟩
    obtain ⟨columns, hclash⟩ := linkClash?_of_mem (by rw [hindex]; decide) hs hlink
    have hinsert := insert_of_users_of_clash husers hclash
    rw [sequel] at hinsert
    rw [swap, h.liveEntry_of_mem hmem hlive]
    simp only [bind, Except.bind]
    rw [hinsert]
    refine ⟨_, rfl, ?_⟩
    intro hlt
    rw [if_pos hlt]
    rfl
  · have hnone : ∀ e ∈ log.entries, e.revision = expected → e.name = name → e.deleted = true := by
      intro e he hrev hname
      by_contra hlive
      exact hfound ⟨e, he, hrev, hname, eq_false_of_ne_true hlive⟩
    rw [swap, h.liveEntry_of_forall hnone]
    exact ⟨.keyExists, rfl, fun _ => rfl⟩

/-- What an update or a deletion that was taken did: it named the head, and a sequel of the head was
written. -/
theorem of_swap_eq_ok (h : log.Sound) (hindex : log.indexing = .linkFirst) {name : String}
    {deleted : Bool} {value : Octets} {expected lease id : Int} {log' : Log}
    (hswap : log.swap name deleted value expected lease = .ok (id, log')) :
    ∃ p, log.head? name = some p ∧ expected = p.revision ∧
      log.append (sequel p deleted value lease) = .ok (id, log') := by
  by_cases hhead : ∃ p, log.head? name = some p ∧ expected = p.revision
  · obtain ⟨p, hp, rfl⟩ := hhead
    rw [h.swap_head hp] at hswap
    exact ⟨p, hp, rfl, ask_eq_ok.1 hswap⟩
  · obtain ⟨e, herror, -⟩ :=
      h.swap_stale hindex (fun p hp hrev => hhead ⟨p, hp, hrev.symm⟩) deleted value lease
    rw [herror] at hswap
    cases hswap

end Sound

end Log

end RevisionLog
