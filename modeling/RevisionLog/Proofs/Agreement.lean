import RevisionLog.Proofs.Density
import RevisionLog.Proofs.History
import RevisionLog.Proofs.Listing

/-!
# Answers that agree

What clients ask of a store and what they are answered, and when an answer is as good as that of a
store with the same history that was never compacted. Two things may be different: a created entry
may have lost its link to the tombstone before it, and the engine matches no pattern that is too
long, which it only finds out where there is a row to match.

* `Ask`, `Answer`, `Log.exchanges` — what is asked, what is answered, and a run of both.
* `Entry.Resembles`, `Answer.Agrees`, `Exchange.Agrees` — when an entry, an answer and an exchange
  are as good.
* `Log.forall₂_byNames` — lists of entries that resemble each other do so in order of names too.
-/

namespace RevisionLog

open Store

/-! ## Exchanges -/

/-- What clients ask of a store: a request, or a question. -/
inductive Ask
  | request (request : Request)
  | get (name : String) (revision : Int)
  | list (start : String) (limit : Nat) (revision : Int)
  | count (start : String) (revision : Int)
  | currentRevision

/-- What they are answered. -/
inductive Answer
  | number (outcome : Except Error Int)
  | entry (outcome : Except Error (Option Entry))
  | entries (outcome : Except Error (List Entry))
  | counted (outcome : Except Error (Int × Nat))
  deriving DecidableEq

namespace Ask

/-- The answer of a log, and the log after it. -/
def on (log : Log) : Ask → Answer × Log
  | request r => (.number (r.op.perform log).1, (r.op.perform log).2)
  | get name revision => (.entry (Store.get log name revision), log)
  | list start limit revision => (.entries (Store.list log start limit revision), log)
  | count start revision => (.counted (Store.count log start revision), log)
  | currentRevision => (.number (Store.currentRevision log), log)

/-- Whether a compaction is asked for. -/
def isCompact : Ask → Bool
  | request r => r.isCompact
  | _ => false

end Ask

/-- Something that was asked, the answer, and the log after it. -/
structure Exchange where
  ask : Ask
  answer : Answer
  log : Log

/-- The exchanges of a run. -/
def Log.exchanges (log : Log) : List Ask → List Exchange
  | [] => []
  | ask :: asks => ⟨ask, (ask.on log).1, (ask.on log).2⟩ :: exchanges (ask.on log).2 asks

/-! ## Agreement -/

/-- The first entry is the second one, but the link to the life before it is lost. In the log the
life before it ended with a tombstone that is still there. -/
structure Entry.Severed (log : Log) (e f : Entry) : Prop where
  created : f.created = true
  same : e = { f with prevRevision := 0 }
  ended : ∃ t ∈ log.chain f.name, t.revision = f.prevRevision ∧ t.deleted = true

/-- The first entry is as good as the second one. -/
def Entry.Resembles (log : Log) (e f : Entry) : Prop := e = f ∨ e.Severed log f

/-- The first answer is as good as the second one, which is that of a log that was never
compacted. -/
inductive Answer.Agrees (log : Log) : Ask → Answer → Answer → Prop
  | same (ask : Ask) (answer : Answer) : Agrees log ask answer answer
  /-- no id is left, and both are refused, perhaps for different reasons -/
  | exhausted {r : Request} {current : Int} {e e' : Error} :
    Store.currentRevision log = .ok current → Revision.greatest ≤ current →
      Agrees log (.request r) (.number (.error e)) (.number (.error e'))
  /-- the first one does not look back so far -/
  | getCompacted {name : String} {revision requested watermark : Int} (answer : Answer) :
    Agrees log (.get name revision) (.entry (.error (.compacted requested watermark))) answer
  | listCompacted {start : String} {limit : Nat} {revision requested watermark : Int}
      (answer : Answer) :
    Agrees log (.list start limit revision) (.entries (.error (.compacted requested watermark)))
      answer
  | countCompacted {start : String} {revision requested watermark : Int} (answer : Answer) :
    Agrees log (.count start revision) (.counted (.error (.compacted requested watermark))) answer
  | get {name : String} {revision : Int} {e f : Entry} :
    e.Resembles log f →
      Agrees log (.get name revision) (.entry (.ok (some e))) (.entry (.ok (some f)))
  | list {start : String} {limit : Nat} {revision : Int} {es fs : List Entry} :
    List.Forall₂ (Entry.Resembles log) es fs →
      Agrees log (.list start limit revision) (.entries (.ok es)) (.entries (.ok fs))
  /-- the pattern is too long, and the first one has nothing left to match against it -/
  | listOverlong {start : String} {limit : Nat} {revision : Int} :
    Pattern.sizeLimit < (Pattern.ofPrefix start).utf8ByteSize →
      Agrees log (.list start limit revision) (.entries (.ok []))
        (.entries (.error (.ofFault .longPattern)))
  | countOverlong {start : String} {revision current : Int} :
    Pattern.sizeLimit < (Pattern.ofPrefix start).utf8ByteSize →
      Agrees log (.count start revision) (.counted (.ok (current, 0)))
        (.counted (.error (.ofFault .longPattern)))

/-- An exchange is as good as one with a log that was never compacted. -/
structure Exchange.Agrees (x y : Exchange) : Prop where
  ask : x.ask = y.ask
  currentRevision : Store.currentRevision x.log = Store.currentRevision y.log
  answer : x.answer.Agrees y.log y.ask y.answer

/-! ## Resemblance -/

namespace Entry.Resembles

variable {log log' : Log} {e f : Entry}

theorem unlinked_eq (h : e.Resembles log f) : e.unlinked = f.unlinked := by
  rcases h with rfl | h
  · rfl
  · rw [h.same]
    simp [unlinked, h.created]

theorem revision_eq (h : e.Resembles log f) : e.revision = f.revision := by
  show e.unlinked.revision = f.unlinked.revision
  rw [h.unlinked_eq]

theorem name_eq (h : e.Resembles log f) : e.name = f.name := by
  show e.unlinked.name = f.unlinked.name
  rw [h.unlinked_eq]

/-- Where no row goes, entries resemble each other as before. -/
theorem mono (h : e.Resembles log f) (hkept : ∀ g ∈ log.entries, g ∈ log'.entries) :
    e.Resembles log' f := by
  rcases h with rfl | h
  · exact Or.inl rfl
  · obtain ⟨t, ht, hlink, hdeleted⟩ := h.ended
    obtain ⟨hmem, hname, hgap⟩ := Log.mem_chain.1 ht
    exact Or.inr ⟨h.created, h.same, t, Log.mem_chain.2 ⟨hkept t hmem, hname, hgap⟩, hlink,
      hdeleted⟩

end Entry.Resembles

/-! ## Lists that resemble each other -/

section Forall₂

variable {α β : Type} {R : α → β → Prop}

/-- Two lists in increasing order go together element by element, if each element of either has its
like in the other. -/
theorem forall₂_of_pairwise {f : α → Int} {g : β → Int} (hkey : ∀ a b, R a b → f a = g b)
    {l : List α} {m : List β} (hl : l.Pairwise fun a b => f a < f b)
    (hm : m.Pairwise fun a b => g a < g b)
    (hleft : ∀ a ∈ l, ∃ b ∈ m, R a b) (hright : ∀ b ∈ m, ∃ a ∈ l, R a b) : List.Forall₂ R l m := by
  induction l generalizing m with
  | nil =>
    rcases m with _ | ⟨b, m⟩
    · exact .nil
    · obtain ⟨a, ha, -⟩ := hright b List.mem_cons_self
      cases ha
  | cons a l ih =>
    rcases m with _ | ⟨b, m⟩
    · obtain ⟨b, hb, -⟩ := hleft a List.mem_cons_self
      cases hb
    · obtain ⟨hafter, hl⟩ := List.pairwise_cons.1 hl
      obtain ⟨hbehind, hm'⟩ := List.pairwise_cons.1 hm
      obtain ⟨c, hc, hac⟩ := hleft a List.mem_cons_self
      obtain ⟨d, hd, hdb⟩ := hright b List.mem_cons_self
      have hacKey := hkey a c hac
      have hdbKey := hkey d b hdb
      -- the first elements have the same key, as neither comes before the other
      have hfirst : c = b := by
        rcases List.mem_cons.1 hc with rfl | hc
        · rfl
        · have hlater := hbehind c hc
          rcases List.mem_cons.1 hd with rfl | hd
          · omega
          · have hlater' := hafter d hd
            omega
      subst hfirst
      refine .cons hac (ih hl hm' ?_ ?_)
      · intro a' ha'
        obtain ⟨b', hb', hR⟩ := hleft a' (List.mem_cons_of_mem a ha')
        rcases List.mem_cons.1 hb' with rfl | hb'
        · have hlt := hafter a' ha'
          have heq := hkey a' _ hR
          omega
        · exact ⟨b', hb', hR⟩
      · intro b' hb'
        obtain ⟨a', ha', hR⟩ := hright b' (List.mem_cons_of_mem c hb')
        rcases List.mem_cons.1 ha' with rfl | ha'
        · have hlt := hbehind b' hb'
          have heq := hkey _ b' hR
          omega
        · exact ⟨a', ha', hR⟩

/-- Lists that go together are the two sides of a list of pairs. -/
theorem exists_pairs_of_forall₂ {l : List α} {m : List β} (h : List.Forall₂ R l m) :
    ∃ ps : List (α × β), ps.map Prod.fst = l ∧ ps.map Prod.snd = m ∧ ∀ p ∈ ps, R p.1 p.2 := by
  induction h with
  | nil => exact ⟨[], rfl, rfl, fun p hp => by cases hp⟩
  | @cons a b l m hab _ ih =>
    obtain ⟨ps, hl, hm, hps⟩ := ih
    refine ⟨(a, b) :: ps, by rw [List.map_cons, hl], by rw [List.map_cons, hm], ?_⟩
    intro p hp
    rcases List.mem_cons.1 hp with rfl | hp
    · exact hab
    · exact hps p hp

end Forall₂

/-- Entries that resemble each other do so in order of names. -/
theorem Log.forall₂_byNames {log : Log} {es fs : List Entry}
    (h : List.Forall₂ (Entry.Resembles log) es fs) :
    List.Forall₂ (Entry.Resembles log) (byNames es) (byNames fs) := by
  obtain ⟨ps, rfl, rfl, hps⟩ := exists_pairs_of_forall₂ h
  let le (p q : Entry × Entry) : Bool := Cell.orderText p.1.name q.1.name ≠ .gt
  have hfst : (ps.mergeSort le).map Prod.fst = byNames (ps.map Prod.fst) :=
    List.map_mergeSort fun p _ q _ => rfl
  have hsnd : (ps.mergeSort le).map Prod.snd = byNames (ps.map Prod.snd) := by
    refine List.map_mergeSort fun p hp q hq => ?_
    simp only [le, (hps p hp).name_eq, (hps q hq).name_eq]
  rw [← hfst, ← hsnd, List.forall₂_map_left_iff, List.forall₂_map_right_iff, List.forall₂_same]
  exact fun p hp => hps p (List.mem_mergeSort.1 hp)

theorem Log.forall₂_first {α β : Type} {R : α → β → Prop} {l : List α} {m : List β}
    (h : List.Forall₂ R l m) (limit : Nat) : List.Forall₂ R (first limit l) (first limit m) := by
  unfold first
  split
  · exact h
  · exact List.forall₂_take limit h

end RevisionLog
