import Mathlib.Data.List.Chain
import RevisionLog.Proofs.Writing

/-!
# Chains of states

The states of a name form a chain: each names the one before it, and a life of the name begins
exactly where the last one ended. Compaction may take away the beginning of a chain, so the first
state that is left may name a revision that is gone; placeholders stand in no chain.

* `Entry.Precedes` — what two neighbours of a chain have to do with each other.
* `Log.Sound` — every chain is in order, and what keeps it so.
* `Log.Sound.put_state`, `put_placeholder`, `compact` — the three ways in which rows change keep a
  log sound.
* `Log.Sound.link_free` — the link behind the end of a chain is never taken.
-/

namespace RevisionLog

namespace Entry

/-- A state `e` of a name comes right after the state `p`. -/
structure Precedes (p e : Entry) : Prop where
  link : e.prevRevision = p.revision
  /-- a life begins exactly after one has ended -/
  turn : e.created = p.deleted
  /-- within a life the beginning stays -/
  beginning : e.created = false → e.createRevision = p.createRevision
  /-- within a life the replaced payload is kept -/
  replaced : e.created = false → e.oldValue = p.value

/-- A state `e` is fit to come next after a chain: after its last state, or as the first one
of all. -/
def Extends (chain : List Entry) (e : Entry) : Prop :=
  match chain.getLast? with
  | none => e.prevRevision = 0
  | some p => p.Precedes e

/-- A state that begins a life carries its own revision as that of the beginning, and replaces
nothing. -/
def IsBorn (e : Entry) : Prop := e.created = true → e.createRevision = e.revision ∧ e.oldValue = []

end Entry

namespace Log

/-- Every chain of a log is in order. The other fields are what keeps the chains so. -/
structure Sound (log : Log) : Prop extends Tidy log where
  floor_nonneg : 0 ≤ log.floor
  floor_le : log.floor ≤ log.sequence.getD 0
  positive : ∀ e ∈ log.entries, 0 < e.revision
  remembered : ∀ e ∈ log.entries, e.revision ≤ log.sequence.getD 0
  /-- a placeholder follows itself -/
  placeholder : ∀ e ∈ log.entries, e.isGap = true → e.prevRevision = e.revision
  /-- a state follows an earlier revision -/
  earlier : ∀ e ∈ log.entries, e.isGap = false → e.prevRevision < e.revision
  born : ∀ e ∈ log.entries, e.isGap = false → e.IsBorn
  /-- no two rows of a name follow the same revision -/
  links : ∀ e ∈ log.entries, ∀ f ∈ log.entries, e.prevRevision = f.prevRevision → e.name = f.name →
    e = f
  chained : ∀ name, (log.chain name).IsChain Entry.Precedes
  /-- the first state that is left follows nothing, or a state that is gone -/
  dangling : ∀ name, ∀ e ∈ (log.chain name).head?, e.prevRevision = 0 ∨
    (e.prevRevision ≤ log.floor ∧ ∀ f ∈ log.entries, f.revision = e.prevRevision → f.isGap = true)

/-- In a list in increasing order the last element is the greatest. -/
theorem le_last {α : Type} {f : α → Int} {l : List α} (hl : l.Pairwise fun a b => f a < f b)
    {p a : α} (hlast : l.getLast? = some p) (ha : a ∈ l) : f a ≤ f p := by
  obtain ⟨front, rfl⟩ := List.getLast?_eq_some_iff.1 hlast
  rcases List.mem_append.1 ha with ha | ha
  · exact Int.le_of_lt ((List.pairwise_append.1 hl).2.2 a ha p (List.mem_singleton_self p))
  · exact Int.le_of_eq (congrArg f (List.mem_singleton.1 ha))

namespace Sound

variable {log : Log}

/-- All rows stand at or below the highest id ever written. -/
theorem id_le (h : log.Sound) {r : Row} (hr : r ∈ log.rows) : r.id ≤ log.sequence.getD 0 :=
  h.remembered _ (List.mem_map_of_mem hr)

theorem reached_eq (h : log.Sound) : log.reached = log.sequence.getD 0 := by
  have hnonneg := Int.le_trans h.floor_nonneg h.floor_le
  rcases hmax : log.greatest? with _ | g
  · rw [reached, hmax]
    exact Int.max_eq_left hnonneg
  · have hmem : g ∈ log.ids := List.max?_mem hmax
    obtain ⟨r, hr, rfl⟩ := List.mem_map.1 hmem
    rw [reached, hmax]
    exact Int.max_eq_left (h.id_le hr)

theorem current_le (h : log.Sound) : log.current ≤ log.sequence.getD 0 := by
  have hreached := h.reached_eq
  have hfloor := h.floor_le
  rw [reached] at hreached
  rw [current]
  omega

/-! ## States behind the end of a chain -/

/-- A state that extends its chain follows an earlier revision than its own. -/
theorem lt_of_extends (h : log.Sound) {e : Entry} (habove : log.sequence.getD 0 < e.revision)
    (hextends : e.Extends (log.chain e.name)) : e.prevRevision < e.revision := by
  have hnonneg := Int.le_trans h.floor_nonneg h.floor_le
  unfold Entry.Extends at hextends
  split at hextends
  · omega
  · next p hlast =>
    have hp := (mem_chain.1 (List.mem_of_getLast? hlast)).1
    have hle := h.remembered p hp
    rw [hextends.link]
    omega

/-- **The next link is free.** No row has the link of a state that extends its chain. -/
theorem link_free (h : log.Sound) {e : Entry} (hextends : e.Extends (log.chain e.name)) {f : Entry}
    (hf : f ∈ log.entries) (hname : e.name = f.name) : e.prevRevision ≠ f.prevRevision := by
  intro hlink
  unfold Entry.Extends at hextends
  rcases hgap : f.isGap with _ | _
  · -- a state of the name: it is at most the last one, which follows an earlier revision
    have hmem : f ∈ log.chain e.name := mem_chain.2 ⟨hf, hname.symm, hgap⟩
    split at hextends
    · next hnil =>
      rw [List.getLast?_eq_none_iff.1 hnil] at hmem
      cases hmem
    · next p hlast =>
      have hle := le_last (log.pairwise_chain e.name) hlast hmem
      have hlt := h.earlier f hf hgap
      have hep := hextends.link
      omega
  · -- a placeholder follows itself, and no state has its revision
    have hself := h.placeholder f hf hgap
    split at hextends
    · have hpos := h.positive f hf
      omega
    · next p hlast =>
      obtain ⟨hp, -, hpgap⟩ := mem_chain.1 (List.mem_of_getLast? hlast)
      have hpf : p = f := eq_of_revision_eq hp hf (by rw [← hextends.link, hlink, hself])
      rw [hpf, hgap] at hpgap
      cases hpgap

/-! ## Rows that are written -/

section Put

variable {r : Row} {fresh : ∀ s ∈ log.rows, s.id ≠ r.id}

/-- A row with a link of its own keeps the links apart. -/
theorem links_put (h : log.Sound)
    (hunlinked : ∀ f ∈ log.entries, r.toEntry.name = f.name →
      r.toEntry.prevRevision ≠ f.prevRevision) :
    ∀ e ∈ (log.put r fresh).entries, ∀ f ∈ (log.put r fresh).entries,
      e.prevRevision = f.prevRevision → e.name = f.name → e = f := by
  intro e he f hf hlink hname
  rcases mem_entries_put.1 he with rfl | he <;> rcases mem_entries_put.1 hf with rfl | hf
  · rfl
  · exact absurd hlink (hunlinked f hf hname)
  · exact absurd hlink.symm (hunlinked e he hname.symm)
  · exact h.links e he f hf hlink hname

/-- A row that is a placeholder or stands above the floor brings back nothing that a first state
follows. -/
theorem dangling_put (h : log.Sound) (hnew : r.toEntry.isGap = true ∨ log.floor < r.id)
    {name : String} {e : Entry} (he : e ∈ (log.chain name).head?) :
    e.prevRevision = 0 ∨ (e.prevRevision ≤ log.floor ∧
      ∀ f ∈ (log.put r fresh).entries, f.revision = e.prevRevision → f.isGap = true) := by
  rcases h.dangling name e he with hzero | ⟨hle, hgone⟩
  · exact Or.inl hzero
  · refine Or.inr ⟨hle, forall_entries_put ?_ hgone⟩
    intro hrev
    rw [Row.revision_toEntry] at hrev
    rcases hnew with hgap | habove
    · exact hgap
    · omega

/-- A row keeps a log sound if it has a link of its own, follows itself or something earlier, as a
placeholder and a state have to, and leaves the chains in order. -/
theorem put (h : log.Sound) (hplain : r.IsPlain) (hpos : 0 < r.id)
    (hgap : r.toEntry.isGap = true → r.toEntry.prevRevision = r.id)
    (hstate : r.toEntry.isGap = false → r.toEntry.prevRevision < r.id ∧ r.toEntry.IsBorn)
    (hunlinked : ∀ f ∈ log.entries, r.toEntry.name = f.name →
      r.toEntry.prevRevision ≠ f.prevRevision)
    (hchained : ∀ name, ((log.put r fresh).chain name).IsChain Entry.Precedes)
    (hdangling : ∀ name, ∀ e ∈ ((log.put r fresh).chain name).head?, e.prevRevision = 0 ∨
      (e.prevRevision ≤ log.floor ∧
        ∀ f ∈ (log.put r fresh).entries, f.revision = e.prevRevision → f.isGap = true)) :
    (log.put r fresh).Sound where
  plain := forall_rows_put hplain h.plain
  watermark := h.watermark
  backward := by
    refine forall_entries_put ?_ h.backward
    rcases hkind : r.toEntry.isGap with _ | _
    · exact Int.le_of_lt (hstate hkind).1
    · exact Int.le_of_eq (hgap hkind)
  floor_nonneg := h.floor_nonneg
  floor_le := Int.le_trans h.floor_le (Int.le_max_left _ _)
  positive := forall_entries_put hpos h.positive
  remembered := forall_entries_put (Int.le_max_right _ _) fun e he =>
    Int.le_trans (h.remembered e he) (Int.le_max_left _ _)
  placeholder := forall_entries_put hgap h.placeholder
  earlier := forall_entries_put (fun hkind => (hstate hkind).1) h.earlier
  born := forall_entries_put (fun hkind => (hstate hkind).2) h.born
  links := h.links_put hunlinked
  chained := hchained
  dangling := hdangling

/-- **A state behind the end of its chain keeps a log sound.** -/
theorem put_state (h : log.Sound) (hplain : r.IsPlain) (habove : log.sequence.getD 0 < r.id)
    (hgap : r.toEntry.isGap = false) (hborn : r.toEntry.IsBorn)
    (hextends : r.toEntry.Extends (log.chain r.toEntry.name)) : (log.put r fresh).Sound := by
  have hbelow : ∀ s ∈ log.rows, s.id < r.id := fun s hs => Int.lt_of_le_of_lt (h.id_le hs) habove
  have hlt := h.lt_of_extends habove hextends
  have hfloor : log.floor < r.id := Int.lt_of_le_of_lt h.floor_le habove
  refine h.put hplain (Int.lt_of_le_of_lt h.floor_nonneg hfloor) ?_ (fun _ => ⟨hlt, hborn⟩)
    (fun f hf hname => h.link_free hextends hf hname) ?chained ?dangling
  · rw [hgap]
    intro htrue
    cases htrue
  case chained =>
    intro name
    by_cases hname : r.toEntry.name = name
    · subst hname
      rw [chain_put_self hbelow hgap]
      refine (h.chained _).append (List.isChain_singleton _) ?_
      intro p hp e he
      rw [List.head?_cons, Option.mem_some_iff] at he
      subst he
      simpa only [Entry.Extends, Option.mem_def.1 hp] using hextends
    · rw [chain_put_of_neg (by simp [Entry.isStateOf, hname])]
      exact h.chained name
  case dangling =>
    intro name e he
    by_cases hname : r.toEntry.name = name
    · subst hname
      rw [chain_put_self hbelow hgap] at he
      rcases hnil : log.chain r.toEntry.name with _ | ⟨p, rest⟩
      · -- the first state of all follows nothing
        rw [hnil, List.nil_append, List.head?_cons, Option.mem_some_iff] at he
        subst he
        rw [hnil] at hextends
        exact Or.inl hextends
      · rw [hnil, List.cons_append, List.head?_cons] at he
        exact h.dangling_put (Or.inr hfloor) (by rw [hnil, List.head?_cons]; exact he)
    · rw [chain_put_of_neg (by simp [Entry.isStateOf, hname])] at he
      exact h.dangling_put (Or.inr hfloor) he

/-- **A placeholder whose link is free keeps a log sound.** It stands in no chain. -/
theorem put_placeholder (h : log.Sound) {id : Int} (hpos : 0 < id)
    {fresh : ∀ s ∈ log.rows, s.id ≠ ((Draft.placeholder id).toRow id).id}
    (hfree : ∀ s ∈ log.rows, ((Draft.placeholder id).toRow id).sameLink s = false) :
    (log.put ((Draft.placeholder id).toRow id) fresh).Sound := by
  have hplain := Draft.isPlain_placeholder id id
  have hentry := Draft.toEntry_placeholder id id
  have hgap : ((Draft.placeholder id).toRow id).toEntry.isGap = true := by
    rw [hentry]
    rfl
  refine h.put hplain hpos ?_ ?_ ?unlinked ?chained ?dangling
  · intro _
    rw [hentry]
    rfl
  · rw [hgap]
    intro hfalse
    cases hfalse
  case unlinked =>
    intro f hf hname hlink
    obtain ⟨s, hs, rfl⟩ := mem_entries.1 hf
    have hclash := hfree s hs
    rw [hplain.sameLink_eq (h.plain s hs), decide_eq_false_iff_not] at hclash
    exact hclash ⟨hlink, hname⟩
  case chained =>
    intro name
    rw [chain_put_placeholder]
    exact h.chained name
  case dangling =>
    intro name e he
    rw [chain_put_placeholder] at he
    exact h.dangling_put (Or.inl hgap) he

end Put

end Sound

end Log

end RevisionLog
