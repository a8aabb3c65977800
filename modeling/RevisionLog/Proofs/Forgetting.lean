import RevisionLog.Proofs.Chain

/-!
# What compaction forgets

Compaction to a revision takes away every row at or below it that another such row follows, and
every one that deletes. It finds them by the links between rows and not by the states of names; on a
sound log the two come to the same.

* `Log.forgets` — the rows that go, as a condition on entries.
* `Log.Sound.chain_compact` — of every chain a beginning goes, and nothing else.
* `Log.Sound.compact` — compaction keeps a log sound.
-/

namespace RevisionLog.Log

variable {log : Log} {revision : Int}

/-- Whether compaction takes an entry away. -/
def forgets (log : Log) (revision : Int) (e : Entry) : Bool :=
  (log.entries.any fun f => f.revision ≤ revision && f.prevRevision ≠ 0 && e.revision =
    f.prevRevision) || (e.revision ≤ revision && e.deleted)

theorem forgets_iff {e : Entry} : log.forgets revision e = true ↔
    (∃ f ∈ log.entries, f.revision ≤ revision ∧ f.prevRevision ≠ 0 ∧ e.revision = f.prevRevision) ∨
      (e.revision ≤ revision ∧ e.deleted = true) := by
  simp [forgets, and_assoc]

namespace Tidy

theorem isSuperseded_iff (h : log.Tidy) {r : Row} : log.isSuperseded revision r = true ↔
    ∃ f ∈ log.entries, f.revision ≤ revision ∧ f.prevRevision ≠ 0 ∧ r.id = f.prevRevision := by
  rw [isSuperseded, List.any_eq_true]
  constructor
  · rintro ⟨s, hs, hsup⟩
    rw [(h.plain s hs).flag_prevRevision, (h.plain s hs).equals_prevRevision] at hsup
    simp only [Bool.and_eq_true, decide_eq_true_eq] at hsup
    exact ⟨s.toEntry, List.mem_map_of_mem hs, hsup.1.1, hsup.1.2, hsup.2⟩
  · rintro ⟨f, hf, hle, hne, hlink⟩
    obtain ⟨s, hs, rfl⟩ := mem_entries.1 hf
    refine ⟨s, hs, ?_⟩
    rw [(h.plain s hs).flag_prevRevision, (h.plain s hs).equals_prevRevision]
    simp only [Bool.and_eq_true, decide_eq_true_eq]
    exact ⟨⟨hle, hne⟩, hlink⟩

theorem isHistory_eq (h : log.Tidy) {r : Row} (hr : r.IsPlain) :
    log.isHistory revision r = log.forgets revision r.toEntry := by
  rw [Bool.eq_iff_iff, forgets_iff, isHistory, Bool.or_eq_true, h.isSuperseded_iff,
    hr.isTombstone_eq, Bool.and_eq_true, decide_eq_true_eq, Row.revision_toEntry]

/-- The entries that are left after compaction. -/
theorem entries_compact (h : log.Tidy) :
    (log.compact revision).2.entries = log.entries.filter fun e => !log.forgets revision e := by
  have hrows := h.map_filter_rows (p := fun r => !log.isHistory revision r)
    (q := fun e => !log.forgets revision e) fun r _ hr => by rw [h.isHistory_eq hr]
  exact hrows

theorem mem_entries_compact (h : log.Tidy) {e : Entry} :
    e ∈ (log.compact revision).2.entries ↔ e ∈ log.entries ∧ log.forgets revision e = false := by
  rw [h.entries_compact, List.mem_filter, Bool.not_eq_true']

/-- Only rows at or below the revision go. -/
theorem le_of_forgets (h : log.Tidy) {e : Entry} (hforgets : log.forgets revision e = true) :
    e.revision ≤ revision := by
  rcases forgets_iff.1 hforgets with ⟨f, hf, hle, -, hlink⟩ | ⟨hle, -⟩
  · have hback := h.backward f hf
    omega
  · exact hle

theorem forgets_of_lt (h : log.Tidy) {e : Entry} (hlt : revision < e.revision) :
    log.forgets revision e = false :=
  eq_false_of_ne_true fun hforgets => Int.not_le.2 hlt (h.le_of_forgets hforgets)

/-- What is above the revision stays. -/
theorem mem_entries_compact_of_lt (h : log.Tidy) {e : Entry} (he : e ∈ log.entries)
    (hlt : revision < e.revision) : e ∈ (log.compact revision).2.entries :=
  h.mem_entries_compact.2 ⟨he, h.forgets_of_lt hlt⟩

/-- The rows that are left after compaction. -/
theorem mem_rows_compact_iff (h : log.Tidy) {r : Row} :
    r ∈ (log.compact revision).2.rows ↔ r ∈ log.rows ∧ log.forgets revision r.toEntry = false := by
  have hrows : (log.compact revision).2.rows = log.rows.filter fun r => !log.isHistory revision r :=
    rfl
  rw [hrows, List.mem_filter, Bool.not_eq_true']
  refine and_congr_right fun hr => ?_
  rw [h.isHistory_eq (h.plain r hr)]

theorem watermark_compact (h : log.Tidy) (habove : log.floor < revision) :
    (log.compact revision).2.watermark = some (.integer revision) := by
  show some (raised log.watermark revision) = _
  rcases hw : log.watermark with _ | c
  · rfl
  · obtain ⟨n, rfl⟩ := h.watermark c hw
    have hn : n < revision := by
      simpa [floor, hw, Cell.toInt] using habove
    simp [raised, Cell.order, Int.compare_eq_lt, hn]

theorem floor_compact (h : log.Tidy) (habove : log.floor < revision) :
    (log.compact revision).2.floor = revision := by
  rw [floor, h.watermark_compact habove]
  rfl

/-- Compaction keeps a log tidy. -/
theorem compact (h : log.Tidy) (habove : log.floor < revision) : (log.compact revision).2.Tidy where
  plain r hr := h.plain r (List.mem_filter.1 hr).1
  watermark c hc := by
    rw [h.watermark_compact habove] at hc
    exact ⟨revision, (Option.some.inj hc).symm⟩
  backward e he := h.backward e (h.mem_entries_compact.1 he).1

end Tidy

/-- Where keeping one element means keeping the next one, a filter takes away a beginning. -/
theorem exists_append_filter {α : Type} {keep : α → Bool} {l : List α}
    (hl : l.IsChain fun a b => keep a = true → keep b = true) :
    ∃ gone, gone ++ l.filter keep = l ∧ ∀ a ∈ gone, keep a = false := by
  induction l with
  | nil => exact ⟨[], rfl, fun a ha => by cases ha⟩
  | cons a l ih =>
    have htail : l.IsChain fun a b => keep a = true → keep b = true := hl.tail
    rcases hkeep : keep a with _ | _
    · obtain ⟨gone, happend, hgone⟩ := ih htail
      refine ⟨a :: gone, ?_, ?_⟩
      · rw [List.filter_cons_of_neg (by rw [hkeep]; decide), List.cons_append, happend]
      · intro b hb
        rcases List.mem_cons.1 hb with rfl | hb
        · exact hkeep
        · exact hgone b hb
    · have hrest : ∀ b ∈ l, keep b = true :=
        List.IsChain.cons_induction (keep · = true) l hl (fun _ _ hcarry => hcarry) hkeep
      refine ⟨[], List.filter_eq_self.2 ?_, fun b hb => by cases hb⟩
      intro b hb
      rcases List.mem_cons.1 hb with rfl | hb
      · exact hkeep
      · exact hrest b hb

/-! ## Chains that are cut -/

namespace Sound

/-- What follows a state is a state of the same name. -/
theorem name_eq_of_link (h : log.Sound) {p f : Entry} (hp : p ∈ log.entries)
    (hpgap : p.isGap = false) (hf : f ∈ log.entries) (hlink : f.prevRevision = p.revision) :
    f.name = p.name ∧ f.isGap = false := by
  have hpos := h.positive p hp
  have hfgap : f.isGap = false := by
    by_contra hgap
    have hgap := eq_true_of_ne_false hgap
    have hfp : f = p := eq_of_revision_eq hf hp (by rw [← hlink, h.placeholder f hf hgap])
    rw [hfp, hpgap] at hgap
    cases hgap
  refine ⟨?_, hfgap⟩
  have hmem : f ∈ log.chain f.name := mem_chain.2 ⟨hf, rfl, hfgap⟩
  obtain ⟨front, rest, hsplit⟩ := List.append_of_mem hmem
  rcases List.eq_nil_or_concat front with hnil | ⟨front', q, rfl⟩
  · -- the first state that is left: it would follow nothing, or a state that is gone
    rw [hnil, List.nil_append] at hsplit
    rcases h.dangling f.name f (by rw [hsplit]; rfl) with hzero | ⟨-, hgone⟩
    · omega
    · rw [hgone p hp hlink.symm] at hpgap
      cases hpgap
  · have hchain := h.chained f.name
    rw [hsplit, List.concat_eq_append, List.append_assoc, List.singleton_append,
      List.isChain_append_cons_cons] at hchain
    have hq : q ∈ log.chain f.name := by
      rw [hsplit]
      simp
    have hqp : q = p := eq_of_revision_eq (mem_chain.1 hq).1 hp (by rw [← hchain.2.1.link, hlink])
    rw [← hqp, (mem_chain.1 hq).2.1]

/-- Rows that were kept at the revision are followed by kept rows. -/
theorem isChain_forgets (h : log.Sound) (revision : Int) (name : String) :
    (log.chain name).IsChain fun p e => (!log.forgets revision p) = true →
      (!log.forgets revision e) = true := by
  refine (h.chained name).imp_of_mem_imp ?_
  intro p e hp he hnext hkept
  have hpos := h.positive p (mem_chain.1 hp).1
  have hlink := hnext.link
  rw [Bool.not_eq_true', ← Bool.not_eq_true] at hkept ⊢
  intro hforgets
  refine hkept
    (forgets_iff.2 (Or.inl ⟨e, (mem_chain.1 he).1, h.le_of_forgets hforgets, ?_, hlink.symm⟩))
  omega

/-- **Compaction cuts chains.** Of every chain a beginning goes, and nothing else. -/
theorem chain_compact (h : log.Sound) (revision : Int) (name : String) :
    ∃ gone, gone ++ (log.compact revision).2.chain name = log.chain name ∧
      ∀ e ∈ gone, log.forgets revision e = true := by
  obtain ⟨gone, happend, hgone⟩ := exists_append_filter (h.isChain_forgets revision name)
  refine ⟨gone, ?_, fun e he => by simpa using hgone e he⟩
  rw [← happend, chain, h.entries_compact, List.filter_filter, chain, List.filter_filter]
  congr 2
  funext e
  exact Bool.and_comm _ _

/-- The first state that compaction leaves was the first one before, or it follows a state
that goes. -/
theorem dangling_compact (h : log.Sound) (habove : log.floor < revision) {name : String} {e : Entry}
    (he : e ∈ ((log.compact revision).2.chain name).head?) :
    e.prevRevision = 0 ∨ (e.prevRevision ≤ revision ∧
      ∀ f ∈ (log.compact revision).2.entries, f.revision = e.prevRevision → f.isGap = true) := by
  obtain ⟨gone, happend, hgone⟩ := h.chain_compact revision name
  rcases List.eq_nil_or_concat gone with rfl | ⟨front, d, rfl⟩
  · -- nothing went: the first state is the same, and less is there
    rw [List.nil_append] at happend
    rw [happend] at he
    rcases h.dangling name e he with hzero | ⟨hbelow, hnone⟩
    · exact Or.inl hzero
    · exact Or.inr ⟨by omega, fun f hf => hnone f (h.mem_entries_compact.1 hf).1⟩
  · -- the last state that went is the one that the first kept state follows
    obtain ⟨rest, hrest⟩ := List.head?_eq_some_iff.1 he
    have hchain := h.chained name
    rw [← happend, hrest, List.concat_eq_append, List.append_assoc, List.singleton_append,
      List.isChain_append_cons_cons] at hchain
    have hlink := hchain.2.1.link
    have hdgone := hgone d (by simp)
    have hdmem : d ∈ log.chain name := by
      rw [← happend]
      simp
    refine Or.inr ⟨by rw [hlink]; exact h.le_of_forgets hdgone, ?_⟩
    intro f hf hrev
    obtain ⟨hfmem, hfkept⟩ := h.mem_entries_compact.1 hf
    have hfd : f = d := eq_of_revision_eq hfmem (mem_chain.1 hdmem).1 (by rw [hrev, hlink])
    rw [hfd, hdgone] at hfkept
    cases hfkept

/-- **Compaction keeps a log sound.** -/
theorem compact (h : log.Sound) (habove : log.floor < revision) (hle : revision ≤ log.current) :
    (log.compact revision).2.Sound := by
  have hold : ∀ e ∈ (log.compact revision).2.entries, e ∈ log.entries := fun e he =>
    (h.mem_entries_compact.1 he).1
  have hfloor := h.floor_compact habove
  refine
    { toTidy := h.toTidy.compact habove
      floor_nonneg := ?_
      floor_le := ?_
      positive := fun e he => h.positive e (hold e he)
      remembered := fun e he => h.remembered e (hold e he)
      placeholder := fun e he => h.placeholder e (hold e he)
      earlier := fun e he => h.earlier e (hold e he)
      born := fun e he => h.born e (hold e he)
      links := fun e he f hf => h.links e (hold e he) f (hold f hf)
      chained := ?chained
      dangling := ?dangling }
  · rw [hfloor]
    exact Int.le_trans h.floor_nonneg (Int.le_of_lt habove)
  · rw [hfloor]
    exact Int.le_trans hle h.current_le
  case chained =>
    intro name
    obtain ⟨gone, happend, -⟩ := h.chain_compact revision name
    exact (h.chained name).suffix ⟨gone, happend⟩
  case dangling =>
    intro name e he
    rw [hfloor]
    exact h.dangling_compact habove he

end Sound

end RevisionLog.Log
