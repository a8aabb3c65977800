import RevisionLog.Proofs.Heads

/-!
# Lists of live keys

A list and a count look at all names at once: of the rows that a pattern selects they take the last
one of every name. On a tidy log this comes to the live states that reads of the single names would
find.

* `Log.liveAt?` — the live state of a name at a revision, which is what a read answers.
* `Log.standing` — the live states at a revision of the names that a pattern selects.
* `Log.Tidy.map_liveRows` — the rows that a list and a count take stand for these.
* `Log.Tidy.list_eq`, `count_eq` — the answers.
-/

namespace RevisionLog

open Store

/-! ## Patterns -/

namespace Pattern

variable {α β : Type}

theorem suffixes_map (f : α → β) (cs : List α) :
    suffixes (cs.map f) = (suffixes cs).map (List.map f) := by
  induction cs with
  | nil => rfl
  | cons c cs ih => rw [List.map_cons, suffixes, suffixes, ih, List.map_cons, List.map_cons]

theorem covers_map (same : Char → β → Bool) (f : α → β) (ps : List Piece) (cs : List α) :
    covers same ps (cs.map f) = covers (fun p c => same p (f c)) ps cs := by
  induction ps generalizing cs with
  | nil => cases cs <;> rfl
  | cons piece ps ih =>
    cases piece with
    | run =>
      have hrest : covers same ps ∘ List.map f = covers (fun p c => same p (f c)) ps := funext ih
      rw [covers, covers, suffixes_map, List.any_map, hrest]
    | one =>
      cases cs with
      | nil => rfl
      | cons c cs => exact ih cs
    | literal p =>
      cases cs with
      | nil => rfl
      | cons c cs => rw [List.map_cons, covers, covers, ih]

/-- To match a name that is read in some way is to match what it is read as. -/
theorem finds_map (same : Char → β → Bool) (f : α → β) (pattern : List Char) (name : List α) :
    finds same pattern (name.map f) = finds (fun p c => same p (f c)) pattern name := by
  rw [finds, finds]
  split
  · rw [List.takeWhile_map, covers_map]
    rfl
  · rfl

/-- A text is read without loss. -/
theorem selectsRead_map_some (pattern name : List Char) :
    selectsRead pattern (name.map some) = selects pattern name :=
  finds_map _ some pattern name

end Pattern

namespace Log

variable {log : Log} {revision : Int}

/-! ## Live states -/

/-- The live state of a name at a revision: the last one up to there, unless it deletes. -/
def liveAt? (log : Log) (name : String) (revision : Int) : Option Entry :=
  ((log.chain name).filter (·.revision ≤ revision)).getLast?.filter fun e => !e.deleted

/-- In a list in increasing order the last of some elements is the one that none of them
comes after. -/
theorem getLast?_filter_eq_some {α : Type} {f : α → Int} {l : List α}
    (hl : l.Pairwise fun a b => f a < f b) {p : α → Bool} {a : α} :
    (l.filter p).getLast? = some a ↔ a ∈ l ∧ p a = true ∧ ∀ b ∈ l, p b = true → f b ≤ f a := by
  have hsorted : (l.filter p).Pairwise fun a b => f a < f b := hl.filter p
  constructor
  · intro hlast
    obtain ⟨hmem, hp⟩ := List.mem_filter.1 (List.mem_of_getLast? hlast)
    exact ⟨hmem, hp, fun b hb hpb => le_last hsorted hlast (List.mem_filter.2 ⟨hb, hpb⟩)⟩
  · rintro ⟨hmem, hp, hgreatest⟩
    rcases hlast : (l.filter p).getLast? with _ | c
    · have hnone := List.getLast?_eq_none_iff.1 hlast
      have ha : a ∈ l.filter p := List.mem_filter.2 ⟨hmem, hp⟩
      rw [hnone] at ha
      cases ha
    · obtain ⟨front, hfront⟩ := List.getLast?_eq_some_iff.1 hlast
      obtain ⟨hcmem, hpc⟩ := List.mem_filter.1 (List.mem_of_getLast? hlast)
      have hle := hgreatest c hcmem hpc
      have ha : a ∈ front ++ [c] := hfront ▸ List.mem_filter.2 ⟨hmem, hp⟩
      rw [hfront] at hsorted
      rcases List.mem_append.1 ha with ha | ha
      · have hlt := (List.pairwise_append.1 hsorted).2.2 a ha c (List.mem_singleton_self c)
        omega
      · rw [List.mem_singleton.1 ha]

theorem liveAt?_eq_some {name : String} {e : Entry} : log.liveAt? name revision = some e ↔
    e ∈ log.chain name ∧ e.revision ≤ revision ∧ e.deleted = false ∧
      ∀ f ∈ log.chain name, f.revision ≤ revision → f.revision ≤ e.revision := by
  rw [liveAt?, Option.filter_eq_some_iff, getLast?_filter_eq_some (log.pairwise_chain name)]
  simp only [decide_eq_true_eq, Bool.not_eq_true']
  tauto

/-- The live state at the current revision is the head. -/
theorem liveAt?_current (log : Log) (name : String) :
    log.liveAt? name log.current = log.head? name := by
  rw [liveAt?, log.filter_chain_current, head?]

/-- The live states at a revision of the names that a pattern selects. -/
def standing (log : Log) (pattern : String) (revision : Int) : List Entry :=
  log.entries.filter fun e =>
    log.liveAt? e.name revision = some e && Pattern.selects pattern.toList e.name.toList

theorem mem_standing {pattern : String} {e : Entry} : e ∈ log.standing pattern revision ↔
    log.liveAt? e.name revision = some e ∧ Pattern.selects pattern.toList e.name.toList = true := by
  rw [standing, List.mem_filter, Bool.and_eq_true, decide_eq_true_eq]
  refine ⟨fun h => h.2, fun h => ⟨(mem_chain.1 (liveAt?_eq_some.1 h.1).1).1, h⟩⟩

/-- A name has one live state at a revision. -/
theorem name_ne_of_standing (log : Log) (pattern : String) (revision : Int) :
    (log.standing pattern revision).Pairwise (·.name ≠ ·.name) := by
  refine (log.pairwise_entries.filter _).imp_of_mem ?_
  intro e f he hf hlt hname
  have hlive := (mem_standing.1 he).1
  rw [hname, (mem_standing.1 hf).1] at hlive
  rw [Option.some.inj hlive] at hlt
  omega

/-- Entries in order of names. -/
def byNames (es : List Entry) : List Entry :=
  es.mergeSort fun e f => Cell.orderText e.name f.name ≠ .gt

/-- The first elements of a list, where zero is no limit. -/
def first {α : Type} (limit : Nat) (l : List α) : List α := if limit = 0 then l else l.take limit

@[simp] theorem first_byNames_nil (limit : Nat) : first limit (byNames []) = [] := by
  simp [first, byNames]

/-- A pattern is longer than the engine matches, and there is an entry to match it against. -/
def Overlong (log : Log) (pattern : String) (revision : Int) : Prop :=
  Pattern.sizeLimit < pattern.utf8ByteSize ∧
    ∃ e ∈ log.entries, log.indexing ≠ .unindexed ∨ e.revision ≤ revision

instance (log : Log) (pattern : String) (revision : Int) :
    Decidable (log.Overlong pattern revision) :=
  inferInstanceAs (Decidable (_ ∧ _))

/-! ## Live rows -/

/-- In rows in order of ids those are the last ones of their names that no row of the name
comes after. -/
theorem lastOfNames_eq_filter {rows : List Row} (hrows : rows.Pairwise (·.id < ·.id)) :
    lastOfNames rows = rows.filter fun r => decide (∀ s ∈ rows, s.name = r.name → s.id ≤ r.id) := by
  induction rows with
  | nil => rfl
  | cons r rows ih =>
    obtain ⟨hfirst, hrest⟩ := List.pairwise_cons.1 hrows
    have htail : (rows.filter fun s => decide (∀ t ∈ r :: rows, t.name = s.name → t.id ≤ s.id)) =
        lastOfNames rows := by
      rw [ih hrest]
      refine List.filter_congr fun s hs => ?_
      have hlt := hfirst s hs
      simp only [List.forall_mem_cons, decide_eq_decide]
      exact ⟨fun h => h.2, fun h => ⟨fun _ => Int.le_of_lt hlt, h⟩⟩
    rw [lastOfNames, List.filter_cons, htail]
    by_cases hlater : ∃ s ∈ rows, s.name = r.name
    · obtain ⟨s, hs, hname⟩ := hlater
      have hlt := hfirst s hs
      rw [if_pos (by simpa using ⟨s, hs, hname⟩), if_neg]
      rw [decide_eq_true_iff]
      intro hlast
      have hle := hlast s (List.mem_cons_of_mem r hs) hname
      omega
    · rw [if_neg (by simpa using hlater), if_pos]
      rw [decide_eq_true_iff]
      intro s hs hname
      rcases List.mem_cons.1 hs with rfl | hs
      · exact Int.le_refl _
      · exact absurd ⟨s, hs, hname⟩ hlater

namespace Tidy

/-- **The live rows stand for the live states.** -/
theorem map_liveRows (h : log.Tidy) (pattern : String) (revision : Int) :
    (log.liveRows pattern revision).map Row.toEntry = log.standing pattern revision := by
  rw [liveRows, lastRows, lastOfNames_eq_filter (log.ordered.filter _), List.filter_filter,
    List.filter_filter]
  refine h.map_filter_rows ?_
  intro r hr hplain
  have hselects : ∀ s ∈ log.rows, Pattern.selectsRead pattern.toList s.name.characters =
      Pattern.selects pattern.toList s.toEntry.name.toList := by
    intro s hs
    rw [(h.plain s hs).name_eq]
    exact Pattern.selectsRead_map_some _ _
  rw [Bool.eq_iff_iff]
  simp only [Bool.and_eq_true, decide_eq_true_eq, liveAt?_eq_some, List.mem_filter,
    Bool.not_eq_true', hplain.isLive_eq, hplain.isGap_eq, hselects r hr]
  constructor
  · rintro ⟨⟨hlive, hlast⟩, ⟨hle, hgap⟩, hselected⟩
    refine ⟨⟨mem_chain.2 ⟨List.mem_map_of_mem hr, rfl, hgap⟩, hle, hlive, ?_⟩, hselected⟩
    intro f hf hfle
    obtain ⟨hfmem, hname, hfgap⟩ := mem_chain.1 hf
    obtain ⟨s, hs, rfl⟩ := mem_entries.1 hfmem
    have hsplain := h.plain s hs
    refine hlast s ⟨hs, ⟨hfle, hsplain.isGap_eq.trans hfgap⟩, ?_⟩ ?_
    · rw [hselects s hs, hname, hselected]
    · rw [hsplain.name_eq, hplain.name_eq, hname]
  · rintro ⟨⟨hmem, hle, hlive, hlast⟩, hselected⟩
    refine ⟨⟨hlive, ?_⟩, ⟨hle, (mem_chain.1 hmem).2.2⟩, hselected⟩
    rintro s ⟨hs, ⟨hsle, hsgap⟩, -⟩ hname
    have hsplain := h.plain s hs
    rw [hsplain.name_eq, hplain.name_eq, Cell.text.injEq] at hname
    exact hlast _ (mem_chain.2 ⟨List.mem_map_of_mem hs, hname, hsplain.isGap_eq.symm.trans hsgap⟩)
      hsle

end Tidy

/-! ## Answers -/

/-- A list at a revision that cannot be read is refused. -/
theorem list_of_refused {e : Error} (hr : resolve log revision = .error e) (start : String)
    (limit : Nat) : Store.list log start limit revision = .error e := by
  rw [Store.list, hr]
  rfl

theorem Tidy.count_of_refused (h : log.Tidy) {e : Error} (hr : resolve log revision = .error e)
    (start : String) : Store.count log start revision = .error e := by
  rw [Store.count, h.store_currentRevision, hr]
  rfl

/-- Rows in order of names stand for entries in order of names. -/
theorem map_byName {rows : List Row} (hplain : ∀ r ∈ rows, r.IsPlain) :
    (byName rows).map Row.toEntry = byNames (rows.map Row.toEntry) := by
  refine List.map_mergeSort ?_
  intro r hr s hs
  rw [(hplain r hr).name_eq, (hplain s hs).name_eq]
  rfl

/-- The first rows stand for the first entries. -/
theorem map_limited (limit : Nat) (rows : List Row) :
    (limited limit rows).map Row.toEntry = first limit (rows.map Row.toEntry) := by
  unfold limited first
  split
  · rfl
  · exact List.map_take

theorem checkPattern_eq (log : Log) (pattern : String) (revision : Int) :
    log.checkPattern pattern revision =
    if log.Overlong pattern revision then .error .longPattern else .ok () := by
  have hany : log.rows.any (log.isMatched revision) = true ↔
      ∃ e ∈ log.entries, log.indexing ≠ .unindexed ∨ e.revision ≤ revision := by
    simp [entries, isMatched]
  rw [checkPattern]
  exact if_congr (and_congr_right fun _ => hany) rfl rfl

namespace Tidy

/-- The entries of a list. -/
theorem list_entries (h : log.Tidy) (pattern : String) (limit : Nat) (revision : Int) :
    (limited limit (byName (log.liveRows pattern revision))).mapM Row.entry =
      .ok (first limit (byNames (log.standing pattern revision))) := by
  have hplain : ∀ r ∈ log.liveRows pattern revision, r.IsPlain := by
    intro r hr
    rw [liveRows, lastRows, lastOfNames_eq_filter (log.ordered.filter _)] at hr
    exact h.plain r (List.mem_filter.1 (List.mem_filter.1 (List.mem_filter.1 hr).1).1).1
  have hsorted : ∀ r ∈ limited limit (byName (log.liveRows pattern revision)), r.IsPlain := by
    intro r hr
    have hmem : r ∈ byName (log.liveRows pattern revision) := by
      unfold limited at hr
      split at hr
      · exact hr
      · exact List.mem_of_mem_take hr
    exact hplain r (List.mem_mergeSort.1 hmem)
  rw [mapM_entry hsorted, map_limited, map_byName hplain, h.map_liveRows]

/-- **What a list answers** at a revision that can be read. -/
theorem list_eq (h : log.Tidy) (start : String) (limit : Nat) {revision at' : Int}
    (hr : resolve log revision = .ok at') : Store.list log start limit revision =
      if Revision.greatest < (limit : Int) then .error (.ofFault .mismatch)
      else if log.Overlong (Pattern.ofPrefix start) at' then .error (.ofFault .longPattern)
      else .ok (first limit (byNames (log.standing (Pattern.ofPrefix start) at'))) := by
  rw [Store.list, hr]
  simp only [bind, Except.bind, Log.list]
  rw [checkPattern_eq, h.list_entries]
  by_cases hlimit : Revision.greatest < (limit : Int)
  · rw [if_pos hlimit, if_pos hlimit]
    rfl
  · rw [if_neg hlimit, if_neg hlimit]
    by_cases hlong : log.Overlong (Pattern.ofPrefix start) at'
    · rw [if_pos hlong, if_pos hlong]
      rfl
    · rw [if_neg hlong, if_neg hlong]
      rfl

/-- A list without a limit, under a pattern that is not too long. -/
theorem list_of_short (h : log.Tidy) {start : String} {revision at' : Int}
    (hr : resolve log revision = .ok at')
    (hshort : (Pattern.ofPrefix start).utf8ByteSize ≤ Pattern.sizeLimit) :
    Store.list log start 0 revision =
        .ok (byNames (log.standing (Pattern.ofPrefix start) at')) := by
  rw [h.list_eq start 0 hr, if_neg (by decide), if_neg fun hlong => Nat.not_lt.2 hshort hlong.1,
    first, if_pos rfl]

/-- **What a count answers** at a revision that can be read. -/
theorem count_eq (h : log.Tidy) (start : String) {revision at' : Int}
    (hr : resolve log revision = .ok at') :
    Store.count log start revision =
      if log.Overlong (Pattern.ofPrefix start) at' then .error (.ofFault .longPattern)
      else .ok (log.current, (log.standing (Pattern.ofPrefix start) at').length) := by
  rw [Store.count, h.store_currentRevision, hr, ← h.map_liveRows, List.length_map]
  simp only [bind, Except.bind, Log.count]
  rw [checkPattern_eq]
  by_cases hlong : log.Overlong (Pattern.ofPrefix start) at'
  · rw [if_pos hlong, if_pos hlong]
    rfl
  · rw [if_neg hlong, if_neg hlong]
    rfl

end Tidy

end Log

end RevisionLog
