import RevisionLog.Context
import Mathlib.Order.Bounds.Defs

/-!
# What finishes a context

Contexts are made on their own, as clones of others, or derived from others with a deadline or
without one. They are cancelled in any order while time passes. From this history alone it can be
told which contexts are finished and why. A context carries tokens and a deadline that were copied
when it was made; both agree with the history at any later time.

* `Family` — the contexts that were made; `Family.play` — what becomes of them.
* `Pedigree` — the history without tokens and deadlines: where contexts come from, and which were
  cancelled.
* `Pedigree.Heeds` — whose cancellation finishes a context; `Pedigree.Given` — the deadlines on the
  way down to it.
* `Family.Kept` — what ties tokens and deadlines to the history; `Family.kept_play` — it holds after
  every history.
* `Family.causes_agree` — a context is finished as its history tells, and by nothing else.
-/

namespace RevisionLog

/-! ## Histories -/

/-- The contexts made so far, in order, and the time. -/
structure Family where
  members : List Context := []
  tokens : Tokens := {}
  now : Nat := 0

/-- One thing that is done with contexts, which are told apart by their places in the order. -/
inductive Family.Deed
  /-- a context of its own, or that of a token nobody else has -/
  | background
  | clone (i : Nat)
  | child (i : Nat)
  | withTimeout (i span : Nat)
  | withDeadline (i time : Nat)
  | cancel (i : Nat)
  /-- time passes -/
  | advance (span : Nat)

namespace Family

def add (f : Family) (made : Context × Tokens) : Family :=
  { f with members := f.members ++ [made.1], tokens := made.2 }

theorem members_add (f : Family) (made : Context × Tokens) :
    (f.add made).members = f.members ++ [made.1] := rfl

/-- What one deed does. Nothing can be done with a context that was not made. -/
def apply (f : Family) : Deed → Family
  | .background => f.add (Context.background f.tokens)
  | .clone i => f.members[i]?.elim f fun c => f.add (c, f.tokens)
  | .child i => f.members[i]?.elim f fun c => f.add (c.child f.tokens)
  | .withTimeout i span => f.members[i]?.elim f fun c => f.add (c.withTimeout f.now span f.tokens)
  | .withDeadline i time => f.members[i]?.elim f fun c => f.add (c.withDeadline time f.tokens)
  | .cancel i => f.members[i]?.elim f fun c => { f with tokens := c.cancel f.tokens }
  | .advance span => { f with now := f.now + span }

/-- What a history does, from no contexts at all. -/
def play (deeds : List Deed) : Family := deeds.foldl apply {}

end Family

/-- Where a context comes from, and the deadline it was given. -/
inductive Descent
  | root
  | clone (i : Nat)
  | derived (i : Nat) (time : Option Nat)
  deriving DecidableEq

/-- The descents of all contexts, and the contexts of which each call of a cancellation was made. -/
structure Pedigree where
  descents : List Descent := []
  calls : List Nat := []
  now : Nat := 0

namespace Pedigree

open Family (Deed)

def add (p : Pedigree) (d : Descent) : Pedigree := { p with descents := p.descents ++ [d] }

theorem descents_add (p : Pedigree) (d : Descent) : (p.add d).descents = p.descents ++ [d] := rfl

/-- What one deed adds to the history. -/
def note (p : Pedigree) : Deed → Pedigree
  | .background => p.add .root
  | .clone i => if i < p.descents.length then p.add (.clone i) else p
  | .child i => if i < p.descents.length then p.add (.derived i none) else p
  | .withTimeout i span => if i < p.descents.length then p.add (.derived i (some (p.now + span)))
      else p
  | .withDeadline i time => if i < p.descents.length then p.add (.derived i (some time)) else p
  | .cancel i => if i < p.descents.length then { p with calls := i :: p.calls } else p
  | .advance span => { p with now := p.now + span }

def ofDeeds (deeds : List Deed) : Pedigree := deeds.foldl note {}

/-- Whose cancellation finishes a context: its own, that of a context from which it was made, and
that of a clone of one of these. -/
inductive Heeds (p : Pedigree) : Nat → Nat → Prop
  | self {i : Nat} (hi : i < p.descents.length) : p.Heeds i i
  | original {i j k : Nat} (hi : p.descents[i]? = some (.clone j)) (hj : p.Heeds j k) : p.Heeds i k
  | parent {i j k : Nat} {time : Option Nat} (hi : p.descents[i]? = some (.derived j time))
      (hj : p.Heeds j k) : p.Heeds i k
  | clone {i j k : Nat} (hj : p.Heeds i j) (hk : p.descents[k]? = some (.clone j)) : p.Heeds i k

/-- The deadlines that were given on the way down to a context. -/
inductive Given (p : Pedigree) : Nat → Nat → Prop
  | here {i j t : Nat} (hi : p.descents[i]? = some (.derived j (some t))) : p.Given i t
  | original {i j t : Nat} (hi : p.descents[i]? = some (.clone j)) (hj : p.Given j t) : p.Given i t
  | parent {i j t : Nat} {time : Option Nat} (hi : p.descents[i]? = some (.derived j time))
      (hj : p.Given j t) : p.Given i t

/-- One context was derived from another, or is a clone of one that was. -/
inductive Derives (p : Pedigree) : Nat → Nat → Prop
  | direct {i j : Nat} {time : Option Nat} (hi : p.descents[i]? = some (.derived j time)) :
      p.Derives i j
  | clone {i j k : Nat} (hi : p.descents[i]? = some (.clone k)) (hk : p.Derives k j) : p.Derives i j

/-- Two contexts that each heed the other are clones of one. -/
def Peers (p : Pedigree) (i k : Nat) : Prop := p.Heeds i k ∧ p.Heeds k i

/-- One context is derived from another, directly or further down. -/
def Below (p : Pedigree) (k i : Nat) : Prop := ∃ j, p.Derives k j ∧ p.Heeds j i

/-- Two contexts are derived from one and are not clones of each other. -/
def Siblings (p : Pedigree) (k i : Nat) : Prop :=
  ¬p.Peers k i ∧ ∃ j j', p.Derives k j ∧ p.Derives i j' ∧ p.Peers j j'

end Pedigree

/-! ## Deadlines -/

namespace Context

variable {c : Context} {tokens tokens' : Tokens} {now now' t : Nat}

theorem withDeadline_eq (c : Context) (time : Nat) (tokens : Tokens) : c.withDeadline time tokens =
    (⟨tokens.made :: c.lineage, c.deadline.merge min (some time)⟩,
      { tokens with made := tokens.made + 1 }) := by
  rw [withDeadline]
  cases c.deadline with
  | none => rfl
  | some sooner =>
    have hmin : (if sooner < time then sooner else time) = min sooner time := by
      split <;> omega
    simp only [hmin]
    rfl

/-- The sooner of two deadlines is one of them. -/
theorem eq_or_eq_of_merge {deadline time : Option Nat} (h : deadline.merge min time = some t) :
    deadline = some t ∨ time = some t := by
  cases deadline with
  | none =>
    rw [Option.merge_none_left] at h
    exact Or.inr h
  | some sooner =>
    cases time with
    | none => exact Or.inl h
    | some later =>
      have hmin : min sooner later = t := Option.some.inj h
      rw [Option.some.injEq, Option.some.injEq]
      omega

/-- A cancellation is that of the own token. -/
theorem mem_cancel :
    t ∈ (c.cancel tokens).cancelled ↔ c.lineage.head? = some t ∨ t ∈ tokens.cancelled := by
  have hown : t ∈ c.lineage.take 1 ↔ c.lineage.head? = some t := by
    cases c.lineage <;> simp [eq_comm]
  rw [cancel, List.mem_append, hown]

theorem isCancelled_iff : c.isCancelled tokens = true ↔ ∃ t ∈ c.lineage, t ∈ tokens.cancelled := by
  simp only [isCancelled, List.any_eq_true, decide_eq_true_eq]

/-- **A cancellation reaches those that carry the own token**, which are the context, its clones and
all that are derived from one of these. Nothing else is cancelled. -/
theorem isCancelled_cancel {d : Context} : c.isCancelled (d.cancel tokens) = true ↔
    (∃ t ∈ c.lineage, d.lineage.head? = some t) ∨ c.isCancelled tokens = true := by
  simp only [isCancelled_iff, mem_cancel, and_or_left, exists_or]

theorem cause?_congr (h : c.isCancelled tokens' = true ↔ c.isCancelled tokens = true) :
    c.cause? tokens' now = c.cause? tokens now := by
  rw [cause?, cause?, Bool.eq_iff_iff.2 h]

theorem cause?_eq_cancelled_iff :
    c.cause? tokens now = some .cancelled ↔ c.isCancelled tokens = true := by
  rw [cause?]
  split
  · next hcancelled => exact iff_of_true rfl hcancelled
  · next hactive =>
    refine iff_of_false ?_ hactive
    split
    · split <;> simp
    · simp

theorem cause?_eq_deadlineExceeded_iff : c.cause? tokens now = some .deadlineExceeded ↔
    ¬c.isCancelled tokens = true ∧ ∃ t, c.deadline = some t ∧ t ≤ now := by
  rw [cause?]
  by_cases hcancelled : c.isCancelled tokens = true
  · rw [if_pos hcancelled]
    exact iff_of_false (by simp) fun h => h.1 hcancelled
  · rw [if_neg hcancelled]
    cases c.deadline with
    | none => simp [hcancelled]
    | some time => simp [hcancelled]

/-- A context is finished once it is cancelled or its deadline has passed. -/
theorem cause?_ne_none_iff : c.cause? tokens now ≠ none ↔
    c.isCancelled tokens = true ∨ ∃ t, c.deadline = some t ∧ t ≤ now := by
  have hcause : c.cause? tokens now ≠ none ↔
      c.cause? tokens now = some .cancelled ∨ c.cause? tokens now = some .deadlineExceeded := by
    cases c.cause? tokens now with
    | none => simp
    | some cause => cases cause <;> simp
  rw [hcause, cause?_eq_cancelled_iff, cause?_eq_deadlineExceeded_iff]
  by_cases hcancelled : c.isCancelled tokens = true <;> simp [hcancelled]

end Context

/-! ## What ties contexts to their history -/

namespace Family

variable {f : Family} {p : Pedigree} {i j k t u : Nat} {b c d : Context} {deed : Deed}
  {deeds : List Deed}

/-- A token that is greater than those of all contexts before a place. -/
def Newer (members : List Context) (i t : Nat) : Prop :=
  ∀ k < i, ∀ d, members[k]? = some d → ∀ u ∈ d.lineage, u < t

/-- What a context carries, by its descent. -/
def Descends (members : List Context) (i : Nat) (c : Context) : Descent → Prop
  | .root => ∃ t, Newer members i t ∧ c = ⟨[t], none⟩
  | .clone j => j < i ∧ members[j]? = some c
  | .derived j time => j < i ∧ ∃ t b, Newer members i t ∧ members[j]? = some b ∧
      c = ⟨t :: b.lineage, b.deadline.merge min time⟩

/-- Each context is as its descent tells, and the tokens cancelled are those of contexts that a call
was made of. -/
structure Kept (f : Family) (p : Pedigree) : Prop where
  length_eq : f.members.length = p.descents.length
  now_eq : f.now = p.now
  descends : ∀ i c d, f.members[i]? = some c → p.descents[i]? = some d → Descends f.members i c d
  older : ∀ c ∈ f.members, ∀ t ∈ c.lineage, t < f.tokens.made
  calls_lt : ∀ k ∈ p.calls, k < f.members.length
  called : ∀ t, t ∈ f.tokens.cancelled ↔
    ∃ k ∈ p.calls, ∃ c, f.members[k]? = some c ∧ c.lineage.head? = some t

theorem Newer.append {members : List Context} (h : Newer members i t) (hi : i ≤ members.length) :
    Newer (members ++ [c]) i t := by
  intro k hk d hd
  rw [List.getElem?_append_left (by omega)] at hd
  exact h k hk d hd

theorem Descends.append {members : List Context} {d : Descent} (h : Descends members i b d)
    (hi : i ≤ members.length) : Descends (members ++ [c]) i b d := by
  cases d with
  | root =>
    obtain ⟨t, hnew, hb⟩ := h
    exact ⟨t, hnew.append hi, hb⟩
  | clone j =>
    obtain ⟨hj, hb⟩ := h
    exact ⟨hj, by rw [List.getElem?_append_left (by omega), hb]⟩
  | derived j time =>
    obtain ⟨hj, t, a, hnew, ha, hb⟩ := h
    exact ⟨hj, t, a, hnew.append hi, by rw [List.getElem?_append_left (by omega), ha], hb⟩

namespace Kept

theorem empty : Kept {} {} where
  length_eq := rfl
  now_eq := rfl
  descends := fun _ _ _ hc => by cases hc
  older := fun _ hc => by cases hc
  calls_lt := fun _ hk => by cases hk
  called := fun _ => ⟨fun ht => (by cases ht), fun ⟨_, hk, _⟩ => (by cases hk)⟩

/-- A token that is made now is newer than all. -/
theorem newer_made (h : f.Kept p) : Newer f.members f.members.length f.tokens.made :=
  fun _ _ d hd u hu => h.older d (List.mem_of_getElem? hd) u hu

/-- One more context keeps the tie, if it is as its descent tells. -/
theorem add (h : f.Kept p) {descent : Descent} {tokens : Tokens}
    (hdescends : Descends f.members f.members.length c descent)
    (hmade : f.tokens.made ≤ tokens.made)
    (hlineage : ∀ t ∈ c.lineage, t < tokens.made)
    (hcancelled : tokens.cancelled = f.tokens.cancelled) :
    (f.add (c, tokens)).Kept (p.add descent) where
  length_eq := by
    rw [members_add, Pedigree.descents_add, List.length_append, List.length_append, h.length_eq]
    rfl
  now_eq := h.now_eq
  descends := by
    intro i a d ha hd
    rw [members_add] at ha
    rw [Pedigree.descents_add] at hd
    -- an earlier context, the new one, or none
    rcases Nat.lt_trichotomy i f.members.length with hi | hi | hi
    · rw [List.getElem?_append_left hi] at ha
      rw [List.getElem?_append_left (h.length_eq ▸ hi)] at hd
      exact (h.descends i a d ha hd).append (Nat.le_of_lt hi)
    · rw [hi, List.getElem?_concat_length] at ha
      rw [hi, h.length_eq, List.getElem?_concat_length] at hd
      cases ha
      cases hd
      exact hi ▸ hdescends.append (Nat.le_refl _)
    · rw [List.getElem?_eq_none (by rw [List.length_append]; exact hi)] at ha
      cases ha
  older := by
    intro a ha t ht
    rcases List.mem_append.1 ha with ha | ha
    · exact Nat.lt_of_lt_of_le (h.older a ha t ht) hmade
    · rw [List.mem_singleton.1 ha] at ht
      exact hlineage t ht
  calls_lt := by
    intro k hk
    rw [members_add, List.length_append]
    exact Nat.lt_add_right _ (h.calls_lt k hk)
  called := by
    intro t
    have hcalled := h.called t
    rw [← hcancelled] at hcalled
    refine hcalled.trans (exists_congr fun k => and_congr_right fun hk => ?_)
    rw [members_add, List.getElem?_append_left (h.calls_lt k hk)]

/-- A context that is derived from a member keeps the tie. -/
theorem add_derived (h : f.Kept p) (hb : f.members[j]? = some b) (time : Option Nat) :
    (f.add (⟨f.tokens.made :: b.lineage, b.deadline.merge min time⟩,
      { f.tokens with made := f.tokens.made + 1 })).Kept (p.add (.derived j time)) := by
  have hj : j < f.members.length := (List.getElem?_eq_some_iff.1 hb).1
  refine h.add ⟨hj, _, b, h.newer_made, hb, rfl⟩ (Nat.le_succ _) ?_ rfl
  intro t ht
  rcases List.mem_cons.1 ht with rfl | ht
  · exact Nat.lt_succ_self _
  · exact Nat.lt_succ_of_lt (h.older b (List.mem_of_getElem? hb) t ht)

theorem add_clone (h : f.Kept p) (hc : f.members[j]? = some c) :
    (f.add (c, f.tokens)).Kept (p.add (.clone j)) :=
  h.add ⟨(List.getElem?_eq_some_iff.1 hc).1, hc⟩ (Nat.le_refl _)
    (h.older c (List.mem_of_getElem? hc)) rfl

theorem add_root (h : f.Kept p) : (f.add (Context.background f.tokens)).Kept (p.add .root) := by
  refine h.add ⟨_, h.newer_made, rfl⟩ (Nat.le_succ _) ?_ rfl
  intro t ht
  rw [List.mem_singleton.1 ht]
  exact Nat.lt_succ_self _

theorem cancel (h : f.Kept p) (hc : f.members[k]? = some c) :
    Kept { f with tokens := c.cancel f.tokens } { p with calls := k :: p.calls } where
  length_eq := h.length_eq
  now_eq := h.now_eq
  descends := h.descends
  older := h.older
  calls_lt := by
    intro i hi
    rcases List.mem_cons.1 hi with rfl | hi
    · exact (List.getElem?_eq_some_iff.1 hc).1
    · exact h.calls_lt i hi
  called := by
    intro t
    simp only [Context.mem_cancel, h.called t, List.mem_cons, or_and_right, exists_or,
      exists_eq_left, hc, Option.some.injEq, exists_eq_left']

theorem advance (h : f.Kept p) (span : Nat) :
    Kept { f with now := f.now + span } { p with now := p.now + span } where
  length_eq := h.length_eq
  now_eq := congrArg (· + span) h.now_eq
  descends := h.descends
  older := h.older
  calls_lt := h.calls_lt
  called := h.called

/-- **A deed keeps the tie.** -/
theorem apply (h : f.Kept p) (deed : Deed) : (f.apply deed).Kept (p.note deed) := by
  have hmember : ∀ {i : Nat} {act : Context → Family} {q : Pedigree},
      (∀ c, f.members[i]? = some c → (act c).Kept q) →
        (f.members[i]?.elim f act).Kept (if i < p.descents.length then q else p) := by
    intro i act q hact
    rw [← h.length_eq]
    split
    · next hi =>
      rw [List.getElem?_eq_getElem hi]
      exact hact _ (List.getElem?_eq_getElem hi)
    · next hi =>
      rw [List.getElem?_eq_none (Nat.not_lt.1 hi)]
      exact h
  cases deed with
  | background => exact h.add_root
  | clone i => exact hmember fun c hc => h.add_clone hc
  | child i =>
    refine hmember fun c hc => ?_
    have hchild := h.add_derived hc none
    rwa [Option.merge_none_right] at hchild
  | withTimeout i span =>
    refine hmember fun c hc => ?_
    rw [Context.withTimeout, Context.withDeadline_eq, ← h.now_eq]
    exact h.add_derived hc _
  | withDeadline i time =>
    refine hmember fun c hc => ?_
    rw [Context.withDeadline_eq]
    exact h.add_derived hc _
  | cancel i => exact hmember fun c hc => h.cancel hc
  | advance span => exact h.advance span

theorem foldl (h : f.Kept p) (deeds : List Deed) :
    (deeds.foldl Family.apply f).Kept (deeds.foldl Pedigree.note p) := by
  induction deeds generalizing f p with
  | nil => exact h
  | cons deed deeds ih => exact ih (h.apply deed)

end Kept

/-- **Every history keeps the tie.** -/
theorem kept_play (deeds : List Deed) : (play deeds).Kept (Pedigree.ofDeeds deeds) :=
  Kept.empty.foldl deeds

/-! ## Cancellations -/

namespace Kept

/-- Every member has a descent. -/
theorem exists_descent (h : f.Kept p) (hc : f.members[i]? = some c) :
    ∃ d, p.descents[i]? = some d ∧ Descends f.members i c d := by
  have hi : i < p.descents.length := h.length_eq ▸ (List.getElem?_eq_some_iff.1 hc).1
  exact ⟨_, List.getElem?_eq_getElem hi, h.descends i c _ hc (List.getElem?_eq_getElem hi)⟩

theorem exists_member (h : f.Kept p) {d : Descent} (hd : p.descents[i]? = some d) :
    ∃ c, f.members[i]? = some c ∧ Descends f.members i c d := by
  have hi : i < f.members.length := h.length_eq ▸ (List.getElem?_eq_some_iff.1 hd).1
  exact ⟨_, List.getElem?_eq_getElem hi, h.descends i _ d (List.getElem?_eq_getElem hi) hd⟩

/-- Every member has a token of its own, and the others that it carries were made before. -/
theorem exists_own (h : f.Kept p) (hc : f.members[i]? = some c) :
    ∃ t, c.lineage.head? = some t ∧ ∀ u ∈ c.lineage, u ≤ t := by
  induction i using Nat.strongRecOn with
  | _ i ih =>
    obtain ⟨d, -, hdescends⟩ := h.exists_descent hc
    cases d with
    | root =>
      obtain ⟨t, -, rfl⟩ := hdescends
      exact ⟨t, rfl, fun u hu => Nat.le_of_eq (List.mem_singleton.1 hu)⟩
    | clone j =>
      obtain ⟨hj, hc⟩ := hdescends
      exact ih j hj hc
    | derived j time =>
      obtain ⟨hj, t, b, hnew, hb, rfl⟩ := hdescends
      refine ⟨t, rfl, fun u hu => ?_⟩
      rcases List.mem_cons.1 hu with rfl | hu
      · exact Nat.le_refl _
      · exact Nat.le_of_lt (hnew j hj b hb u hu)

/-- What a context heeds has its own token among those that the context carries. -/
theorem exists_mem_of_heeds (h : f.Kept p) (hheeds : p.Heeds i k) :
    ∃ c d t, f.members[i]? = some c ∧
    f.members[k]? = some d ∧ d.lineage.head? = some t ∧ t ∈ c.lineage := by
  induction hheeds with
  | self hi =>
    have hc := List.getElem?_eq_getElem (h.length_eq ▸ hi)
    obtain ⟨t, hown, -⟩ := h.exists_own hc
    exact ⟨_, _, t, hc, hc, hown, List.mem_of_head? hown⟩
  | original hi _ ih =>
    obtain ⟨b, d, t, hb, hd, hown, ht⟩ := ih
    obtain ⟨c, hc, -, hbc⟩ := h.exists_member hi
    obtain rfl := Option.some.inj (hb.symm.trans hbc)
    exact ⟨b, d, t, hc, hd, hown, ht⟩
  | parent hi _ ih =>
    obtain ⟨b, d, t, hb, hd, hown, ht⟩ := ih
    obtain ⟨c, hc, -, u, b', -, hb', rfl⟩ := h.exists_member hi
    obtain rfl := Option.some.inj (hb.symm.trans hb')
    exact ⟨_, d, t, hc, hd, hown, List.mem_cons_of_mem u ht⟩
  | clone _ hk ih =>
    obtain ⟨c, d, t, hc, hd, hown, ht⟩ := ih
    obtain ⟨d', hd', -, hdd⟩ := h.exists_member hk
    obtain rfl := Option.some.inj (hd.symm.trans hdd)
    exact ⟨c, d, t, hc, hd', hown, ht⟩

/-- The same of two contexts that are known. -/
theorem mem_of_heeds (h : f.Kept p) (hheeds : p.Heeds i k) (hc : f.members[i]? = some c)
    (hd : f.members[k]? = some d) (hown : d.lineage.head? = some t) : t ∈ c.lineage := by
  obtain ⟨c', d', u, hc', hd', hown', hu⟩ := h.exists_mem_of_heeds hheeds
  obtain rfl := Option.some.inj (hc.symm.trans hc')
  obtain rfl := Option.some.inj (hd.symm.trans hd')
  obtain rfl := Option.some.inj (hown.symm.trans hown')
  exact hu

/-- Two contexts that were each made with a token of their own are one if the tokens are. -/
theorem eq_of_newer (hc : f.members[i]? = some c) (hd : f.members[k]? = some d)
    (hi : Newer f.members i t) (hk : Newer f.members k t) (hct : t ∈ c.lineage)
    (hdt : t ∈ d.lineage) : i = k := by
  rcases Nat.lt_trichotomy i k with hlt | heq | hlt
  · exact absurd (hk i hlt c hc t hct) (Nat.lt_irrefl t)
  · exact heq
  · exact absurd (hi k hlt d hd t hdt) (Nat.lt_irrefl t)

/-- A context heeds the one that was made with a token it carries. -/
theorem heeds_maker (h : f.Kept p) (hc : f.members[i]? = some c) (hd : f.members[k]? = some d)
    (hk : Newer f.members k t) (hdt : t ∈ d.lineage) (ht : t ∈ c.lineage) : p.Heeds i k := by
  -- up from the context to the one that the token was made with
  induction i using Nat.strongRecOn generalizing c with
  | _ i ih =>
    have hself : Newer f.members i t → p.Heeds i k := by
      intro hi
      obtain rfl := eq_of_newer hc hd hi hk ht hdt
      exact .self (h.length_eq ▸ (List.getElem?_eq_some_iff.1 hc).1)
    obtain ⟨descent, hi, hdescends⟩ := h.exists_descent hc
    cases descent with
    | root =>
      obtain ⟨u, hnew, rfl⟩ := hdescends
      obtain rfl := List.mem_singleton.1 ht
      exact hself hnew
    | clone j =>
      obtain ⟨hj, hc⟩ := hdescends
      exact .original hi (ih j hj hc ht)
    | derived j time =>
      obtain ⟨hj, u, b, hnew, hb, rfl⟩ := hdescends
      rcases List.mem_cons.1 ht with rfl | ht
      · exact hself hnew
      · exact .parent hi (ih j hj hb ht)

/-- A context heeds all contexts whose own token it carries. -/
theorem heeds_of_mem (h : f.Kept p) (hc : f.members[i]? = some c) (hd : f.members[k]? = some d)
    (hown : d.lineage.head? = some t) (ht : t ∈ c.lineage) : p.Heeds i k := by
  -- from a clone back to what was cloned, down to the one that was made with the token
  induction k using Nat.strongRecOn with
  | _ k ih =>
    have hdt : t ∈ d.lineage := List.mem_of_head? hown
    obtain ⟨descent, hk, hdescends⟩ := h.exists_descent hd
    cases descent with
    | root =>
      obtain ⟨u, hnew, rfl⟩ := hdescends
      cases hown
      exact h.heeds_maker hc hd hnew hdt ht
    | clone j =>
      obtain ⟨hj, hd⟩ := hdescends
      exact .clone (ih j hj hd) hk
    | derived j time =>
      obtain ⟨-, u, b, hnew, -, rfl⟩ := hdescends
      cases hown
      exact h.heeds_maker hc hd hnew hdt ht

/-- **A context is cancelled exactly if a call was made of one that it heeds.** -/
theorem isCancelled_iff (h : f.Kept p) (hc : f.members[i]? = some c) :
    c.isCancelled f.tokens = true ↔ ∃ k ∈ p.calls, p.Heeds i k := by
  rw [Context.isCancelled_iff]
  constructor
  · rintro ⟨t, ht, hcancelled⟩
    obtain ⟨k, hk, d, hd, hown⟩ := (h.called t).1 hcancelled
    exact ⟨k, hk, h.heeds_of_mem hc hd hown ht⟩
  · rintro ⟨k, hk, hheeds⟩
    obtain ⟨c', d, t, hc', hd, hown, ht⟩ := h.exists_mem_of_heeds hheeds
    obtain rfl := Option.some.inj (hc.symm.trans hc')
    exact ⟨t, ht, (h.called t).2 ⟨k, hk, d, hd, hown⟩⟩

/-! ### Ancestors and siblings -/

/-- The own token of a derived context is newer than all that the other one carries. -/
theorem newer_of_derives (h : f.Kept p) (hderives : p.Derives k j) (hd : f.members[k]? = some d)
    (hb : f.members[j]? = some b) : ∃ t, d.lineage = t :: b.lineage ∧ ∀ u ∈ b.lineage, u < t := by
  induction hderives with
  | direct hi =>
    obtain ⟨d', hd', hj, t, b', hnew, hb', rfl⟩ := h.exists_member hi
    obtain rfl := Option.some.inj (hd.symm.trans hd')
    obtain rfl := Option.some.inj (hb.symm.trans hb')
    exact ⟨t, rfl, hnew _ hj b hb⟩
  | clone hi _ ih =>
    obtain ⟨d', hd', -, horiginal⟩ := h.exists_member hi
    obtain rfl := Option.some.inj (hd.symm.trans hd')
    exact ih horiginal hb

/-- What is newer than all that a context carries is not carried by those that it heeds. -/
theorem not_mem_of_heeds (h : f.Kept p) (hheeds : p.Heeds j i) (hb : f.members[j]? = some b)
    (hc : f.members[i]? = some c) (hlt : ∀ u ∈ b.lineage, u < t) : t ∉ c.lineage := by
  intro ht
  obtain ⟨u, hown, hle⟩ := h.exists_own hc
  have hu := hlt u (h.mem_of_heeds hheeds hb hc hown)
  exact absurd (hle t ht) (Nat.not_le.2 hu)

/-- A context does not heed those derived from it. -/
theorem not_heeds_of_below (h : f.Kept p) (hbelow : p.Below k i) : ¬p.Heeds i k := by
  obtain ⟨j, hderives, hji⟩ := hbelow
  intro hik
  obtain ⟨b, c, -, hb, hc, -, -⟩ := h.exists_mem_of_heeds hji
  obtain ⟨-, d, -, -, hd, -, -⟩ := h.exists_mem_of_heeds hik
  obtain ⟨t, hlineage, hlt⟩ := h.newer_of_derives hderives hd hb
  exact h.not_mem_of_heeds hji hb hc hlt
    (h.mem_of_heeds hik hc hd (by rw [hlineage, List.head?_cons]))

/-- Siblings do not heed each other. -/
theorem not_heeds_of_siblings (h : f.Kept p) (hsiblings : p.Siblings k i) : ¬p.Heeds i k := by
  obtain ⟨hpeers, j, j', hkj, hij', hjj'⟩ := hsiblings
  intro hik
  obtain ⟨c, d, -, hc, hd, -, -⟩ := h.exists_mem_of_heeds hik
  obtain ⟨b, b', -, hb, hb', -, -⟩ := h.exists_mem_of_heeds hjj'.1
  obtain ⟨t, hlineage, hlt⟩ := h.newer_of_derives hkj hd hb
  obtain ⟨s, hlineage', -⟩ := h.newer_of_derives hij' hc hb'
  have ht := h.mem_of_heeds hik hc hd (by rw [hlineage, List.head?_cons])
  rw [hlineage'] at ht
  rcases List.mem_cons.1 ht with rfl | ht
  · have hki : p.Heeds k i := h.heeds_of_mem hd hc (by rw [hlineage', List.head?_cons])
      (by rw [hlineage]; exact List.mem_cons_self)
    exact hpeers ⟨hki, hik⟩
  · exact h.not_mem_of_heeds hjj'.1 hb hb' hlt ht

/-! ### Given deadlines -/

theorem exists_deadline_le (h : f.Kept p) (hgiven : p.Given i u) (hc : f.members[i]? = some c) :
    ∃ t, c.deadline = some t ∧ t ≤ u := by
  induction hgiven generalizing c with
  | here hi =>
    obtain ⟨c', hc', -, s, b, -, -, rfl⟩ := h.exists_member hi
    obtain rfl := Option.some.inj (hc.symm.trans hc')
    cases b.deadline with
    | none => exact ⟨_, rfl, Nat.le_refl _⟩
    | some sooner => exact ⟨_, rfl, Nat.min_le_right _ _⟩
  | original hi _ ih =>
    obtain ⟨c', hc', -, horiginal⟩ := h.exists_member hi
    obtain rfl := Option.some.inj (hc.symm.trans hc')
    exact ih horiginal
  | @parent i j u time hi _ ih =>
    obtain ⟨c', hc', -, s, b, -, hb, rfl⟩ := h.exists_member hi
    obtain rfl := Option.some.inj (hc.symm.trans hc')
    obtain ⟨t, ht, hle⟩ := ih hb
    rw [ht]
    cases time with
    | none => exact ⟨t, rfl, hle⟩
    | some later => exact ⟨_, rfl, Nat.le_trans (Nat.min_le_left _ _) hle⟩

theorem given_of_deadline (h : f.Kept p) (hc : f.members[i]? = some c) (ht : c.deadline = some t) :
    p.Given i t := by
  induction i using Nat.strongRecOn generalizing c with
  | _ i ih =>
    obtain ⟨descent, hi, hdescends⟩ := h.exists_descent hc
    cases descent with
    | root =>
      obtain ⟨u, -, rfl⟩ := hdescends
      cases ht
    | clone j =>
      obtain ⟨hj, hc⟩ := hdescends
      exact .original hi (ih j hj hc ht)
    | derived j time =>
      obtain ⟨hj, u, b, -, hb, rfl⟩ := hdescends
      rcases Context.eq_or_eq_of_merge ht with ht | rfl
      · exact .parent hi (ih j hj hb ht)
      · exact .here hi

/-- **The deadline of a context is the least of those given on the way down to it.** -/
theorem deadline_eq_some_iff (h : f.Kept p) (hc : f.members[i]? = some c) (t : Nat) :
    c.deadline = some t ↔ IsLeast { u | p.Given i u } t := by
  constructor
  · intro ht
    refine ⟨h.given_of_deadline hc ht, fun u hu => ?_⟩
    obtain ⟨s, hs, hle⟩ := h.exists_deadline_le hu hc
    cases ht.symm.trans hs
    exact hle
  · rintro ⟨hgiven, hleast⟩
    obtain ⟨s, hs, hle⟩ := h.exists_deadline_le hgiven hc
    rw [hs, Nat.le_antisymm hle (hleast (h.given_of_deadline hc hs))]

theorem deadline_eq_none_iff (h : f.Kept p) (hc : f.members[i]? = some c) :
    c.deadline = none ↔ ∀ u, ¬p.Given i u := by
  constructor
  · intro hnone u hu
    obtain ⟨s, hs, -⟩ := h.exists_deadline_le hu hc
    cases hnone.symm.trans hs
  · intro hgiven
    cases hs : c.deadline with
    | none => rfl
    | some s => exact absurd (h.given_of_deadline hc hs) (hgiven s)

end Kept

/-! ## Later times -/

/-- Why a context is finished at the time that a family has come to. -/
def cause? (f : Family) (c : Context) : Option Cause := c.cause? f.tokens f.now

/-- Later, as many tokens are cancelled or more, and the time is no earlier. -/
structure Grows (f f' : Family) : Prop where
  cancelled : f.tokens.cancelled ⊆ f'.tokens.cancelled
  now_le : f.now ≤ f'.now

theorem Grows.refl (f : Family) : f.Grows f := ⟨List.Subset.refl _, Nat.le_refl _⟩

theorem grows_apply (f : Family) (deed : Deed) : f.Grows (f.apply deed) := by
  cases deed with
  | background => exact ⟨List.Subset.refl _, Nat.le_refl _⟩
  | clone i | child i | withTimeout i span | withDeadline i time =>
    simp only [apply]
    cases f.members[i]? with
    | none => exact .refl f
    | some c => exact ⟨List.Subset.refl _, Nat.le_refl _⟩
  | cancel i =>
    simp only [apply]
    cases f.members[i]? with
    | none => exact .refl f
    | some c => exact ⟨List.subset_append_right _ _, Nat.le_refl _⟩
  | advance span => exact ⟨List.Subset.refl _, Nat.le_add_right _ _⟩

theorem grows_foldl (f : Family) (deeds : List Deed) : f.Grows (deeds.foldl apply f) := by
  induction deeds generalizing f with
  | nil => exact .refl f
  | cons deed deeds ih =>
    have hfirst := f.grows_apply deed
    have hrest := ih (f.apply deed)
    exact ⟨fun _ ht => hrest.cancelled (hfirst.cancelled ht),
      Nat.le_trans hfirst.now_le hrest.now_le⟩

/-- What is finished stays finished, and what is cancelled stays cancelled. -/
theorem Grows.finished {f f' : Family} (h : f.Grows f') : (f.cause? c ≠ none → f'.cause? c ≠ none) ∧
    (f.cause? c = some .cancelled → f'.cause? c = some .cancelled) := by
  have hcancelled : c.isCancelled f.tokens = true → c.isCancelled f'.tokens = true := by
    simp only [Context.isCancelled_iff]
    rintro ⟨t, ht, hcancelled⟩
    exact ⟨t, ht, h.cancelled hcancelled⟩
  simp only [cause?, Context.cause?_ne_none_iff, Context.cause?_eq_cancelled_iff]
  exact ⟨Or.imp hcancelled fun ⟨t, ht, hle⟩ => ⟨t, ht, Nat.le_trans hle h.now_le⟩, hcancelled⟩

/-- The cancellation of a context that is not heeded changes nothing. -/
theorem Kept.cause?_cancel (h : f.Kept p) (hc : f.members[i]? = some c) (hheeds : ¬p.Heeds i k) :
    (f.apply (.cancel k)).cause? c = f.cause? c := by
  simp only [Family.apply]
  cases hk : f.members[k]? with
  | none => rfl
  | some d =>
    refine Context.cause?_congr (Context.isCancelled_cancel.trans (or_iff_right ?_))
    rintro ⟨t, ht, hown⟩
    exact hheeds (h.heeds_of_mem hc hk hown ht)

/-- **Two things finish a context**: the cancellation of one that it heeds, and the time when its
deadline comes. -/
theorem Kept.finished_by (h : f.Kept p) (hc : f.members[i]? = some c) (hactive : f.cause? c = none)
    (hfinished : (f.apply deed).cause? c ≠ none) : (∃ k, deed = .cancel k ∧ p.Heeds i k) ∨
      ∃ span t, deed = .advance span ∧ IsLeast { u | p.Given i u } t ∧ f.now < t ∧
        t ≤ f.now + span := by
  have hmade : ∀ {j : Nat} {make : Context → Context × Tokens},
      (∀ b, (make b).2.cancelled = f.tokens.cancelled) →
        ¬(f.members[j]?.elim f fun b => f.add (make b)).cause? c ≠ none := by
    intro j make hmake hne
    cases hj : f.members[j]? with
    | none =>
      rw [hj] at hne
      exact hne hactive
    | some b =>
      rw [hj] at hne
      refine hne ((Context.cause?_congr ?_).trans hactive)
      rw [Context.isCancelled_iff, Context.isCancelled_iff, Option.elim_some, Family.add, hmake b]
  cases deed with
  | background => exact absurd hactive hfinished
  | clone j | child j | withTimeout j span | withDeadline j time =>
    exact absurd hfinished (hmade fun _ => rfl)
  | cancel k =>
    by_cases hheeds : p.Heeds i k
    · exact Or.inl ⟨k, rfl, hheeds⟩
    · exact absurd ((h.cause?_cancel hc hheeds).trans hactive) hfinished
  | advance span =>
    have hbefore : ¬(c.isCancelled f.tokens = true ∨ ∃ t, c.deadline = some t ∧ t ≤ f.now) :=
      fun hcause => Context.cause?_ne_none_iff.2 hcause hactive
    rcases Context.cause?_ne_none_iff.1 hfinished with hcancelled | ⟨t, ht, hle⟩
    · exact absurd (Or.inl hcancelled) hbefore
    · refine Or.inr ⟨span, t, rfl, (h.deadline_eq_some_iff hc t).1 ht, ?_, hle⟩
      exact Nat.lt_of_not_le fun hpassed => hbefore (Or.inr ⟨t, ht, hpassed⟩)

open Pedigree (ofDeeds)

/-- **A context is finished as its history tells.** It is cancelled exactly if a call was made of
one that it heeds, and otherwise its deadline has passed exactly if the least of those given on the
way down to it has. What is finished stays so. Nothing else finishes a context, least of all what is
done with contexts derived from it or beside it. -/
theorem causes_agree (deeds : List Deed) (hc : (play deeds).members[i]? = some c) :
    ((play deeds).cause? c = some .cancelled ↔
      ∃ k ∈ (ofDeeds deeds).calls, (ofDeeds deeds).Heeds i k) ∧
      ((play deeds).cause? c = some .deadlineExceeded ↔
        (¬∃ k ∈ (ofDeeds deeds).calls, (ofDeeds deeds).Heeds i k) ∧
          ∃ t, IsLeast { u | (ofDeeds deeds).Given i u } t ∧ t ≤ (ofDeeds deeds).now) ∧
      (∀ t, c.deadline = some t ↔ IsLeast { u | (ofDeeds deeds).Given i u } t) ∧
      (c.deadline = none ↔ ∀ u, ¬(ofDeeds deeds).Given i u) ∧
      (∀ more, (play deeds).cause? c ≠ none → (play (deeds ++ more)).cause? c ≠ none) ∧
      (∀ deed, (play deeds).cause? c = none → (play (deeds ++ [deed])).cause? c ≠ none →
        (∃ k, deed = .cancel k ∧ (ofDeeds deeds).Heeds i k) ∨
          ∃ span t, deed = .advance span ∧ IsLeast { u | (ofDeeds deeds).Given i u } t ∧
            (ofDeeds deeds).now < t ∧ t ≤ (ofDeeds deeds).now + span) ∧
      ∀ k, (ofDeeds deeds).Below k i ∨ (ofDeeds deeds).Siblings k i →
        ¬(ofDeeds deeds).Heeds i k ∧
        (play (deeds ++ [.cancel k])).cause? c = (play deeds).cause? c := by
  have hkept := kept_play deeds
  have happend : ∀ more, play (deeds ++ more) = more.foldl apply (play deeds) :=
    fun more => List.foldl_append
  simp only [happend, List.foldl_cons, List.foldl_nil]
  refine ⟨?_, ?_, hkept.deadline_eq_some_iff hc, hkept.deadline_eq_none_iff hc, ?_, ?_, ?_⟩
  · exact Context.cause?_eq_cancelled_iff.trans (hkept.isCancelled_iff hc)
  · refine Context.cause?_eq_deadlineExceeded_iff.trans
      (and_congr (not_congr (hkept.isCancelled_iff hc)) ?_)
    exact exists_congr fun t => and_congr (hkept.deadline_eq_some_iff hc t) (by rw [hkept.now_eq])
  · exact fun more => ((play deeds).grows_foldl more).finished.1
  · intro deed hactive hfinished
    rw [← hkept.now_eq]
    exact hkept.finished_by hc hactive hfinished
  · intro k hk
    have hheeds := hk.elim hkept.not_heeds_of_below hkept.not_heeds_of_siblings
    exact ⟨hheeds, hkept.cause?_cancel hc hheeds⟩

/-- A context with three others above it, of which the second is a clone. It is not finished when
one that is derived from it has expired, nor when that one is cancelled, but it is when a call is
made of the context that was cloned. -/
theorem exists_causes_agree :
    ∃ (deeds : List Deed) (c : Context), deeds = [.background, .withDeadline 0 10, .clone 1,
      .child 2, .withTimeout 3 20, .child 0, .advance 5, .withTimeout 4 3, .advance 3] ∧
    (play deeds).members[4]? = some c ∧ (play deeds).cause? c = none ∧ c.deadline = some 10 ∧
    IsLeast { u | (ofDeeds deeds).Given 4 u } 10 ∧
    ((play deeds).members[6]?.bind (play deeds).cause?) = some .deadlineExceeded ∧
    (ofDeeds deeds).Below 6 4 ∧
    (play (deeds ++ [.cancel 6])).cause? c = none ∧ (ofDeeds deeds).Heeds 4 1 ∧
    (play (deeds ++ [.cancel 1])).cause? c = some .cancelled := by
  let deeds : List Deed :=
    [.background, .withDeadline 0 10, .clone 1, .child 2, .withTimeout 3 20, .child 0,
      .advance 5, .withTimeout 4 3, .advance 3]
  have hc : (play deeds).members[4]? = some ⟨[3, 2, 1, 0], some 10⟩ := by decide
  have hactive : (play deeds).cause? ⟨[3, 2, 1, 0], some 10⟩ = none := by decide
  have hcancelled : (play (deeds ++ [.cancel 1])).cause? ⟨[3, 2, 1, 0], some 10⟩ =
    some .cancelled := by decide
  have hdescent : (ofDeeds deeds).descents[6]? = some (.derived 4 (some 8)) := by decide
  have hbelow : (ofDeeds deeds).Below 6 4 := ⟨4, .direct hdescent, .self (by decide)⟩
  obtain ⟨-, -, hdeadline, -, -, hfinished, hbeside⟩ := causes_agree deeds hc
  have hheeds : (ofDeeds deeds).Heeds 4 1 := by
    rcases hfinished (.cancel 1) hactive (by rw [hcancelled]; simp) with
      ⟨k, hk, hheeds⟩ | ⟨span, t, hadvance, -⟩
    · cases hk
      exact hheeds
    · cases hadvance
  exact ⟨deeds, _, rfl, hc, hactive, rfl, (hdeadline 10).1 rfl, by decide, hbelow,
    (hbeside 6 (.inl hbelow)).2.trans hactive, hheeds, hcancelled⟩

end Family

end RevisionLog
