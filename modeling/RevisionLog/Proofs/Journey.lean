import RevisionLog.Proofs.Scene

/-!
# The journey of a watcher

A watcher that nobody disturbs is on a journey, one read after the other. Failures make it repeat
steps of this journey, and never make it leave it or pass over a step: what an error leaves half
done is at most a claim that is not made yet, and the watcher has to suspect the missing id again.

* `Journey` — where a watcher is that nobody disturbs; `Journey.step` — its next read.
* `Journey.along_of_judge` — what a read makes of a watcher that stands where the journey does.
* `Journey.Abreast.fetch` — a fetch takes a watcher along the journey, and where nothing fails it
  gets on.
-/

namespace RevisionLog

open Store Watcher

/-! ## The journey of a watcher -/

/-- A log after a claim, which changes nothing where it is refused. -/
def Log.claimed (log : Log) (id : Int) : Log :=
  match Store.fill log id with
  | .ok log => log
  | .error _ => log

/-- Where a watcher is that nobody disturbs, the log that it runs on, and all that was
shown to it. -/
structure Journey where
  suspect : Option Int := none
  position : Int
  log : Log
  shown : List Entry := []

namespace Journey

/-- A watcher that stands there. -/
def watcher (j : Journey) : Watcher :=
  { cursor := j.position, position := j.position, suspect := j.suspect }

/-- What a verdict makes of a journey. -/
def take (j : Journey) : Verdict × Watcher → Journey
  | (.deliver delivered, w) =>
    { j with suspect := w.suspect, position := w.position, shown := j.shown ++ delivered }
  | (.again, w) => { j with suspect := w.suspect, position := w.position }
  | (.claim id, w) =>
    { j with suspect := w.suspect, position := w.position, log := j.log.claimed id }

/-- The next read, with the claim that may come of it. Where the rows cannot be read, that is so
for good. -/
def step (batch : Nat) (j : Journey) : Journey :=
  match Store.since j.log j.position (max batch 1) with
  | .error _ => j
  | .ok rows => j.take (j.watcher.judge rows)

/-- What is suspected is the next id, or behind. -/
def Near (j : Journey) : Prop := ∀ id, j.suspect = some id → id ≤ j.position + 1

variable {batch fuel : Nat} {j : Journey} {w w' : Watcher} {rows : List Entry} {verdict : Verdict}

theorem step_of_error {e : Error} (h : Store.since j.log j.position (max batch 1) = .error e) :
    j.step batch = j := by
  rw [step, h]

theorem step_of_ok (h : Store.since j.log j.position (max batch 1) = .ok rows) :
    j.step batch = j.take (j.watcher.judge rows) := by
  rw [step, h]

/-- What comes of a read where the journey reads the same rows, for a watcher that stands there and
suspects no more than the journey does. -/
inductive Along (batch : Nat) (j : Journey) (w w' : Watcher) : Verdict → Prop
  /-- the watcher delivers what the journey does -/
  | deliver {delivered : List Entry}
    (hstep : j.step batch =
      { j with suspect := w'.suspect, position := w'.position, shown := j.shown ++ delivered }) :
    Along batch j w w' (.deliver delivered)
  /-- the watcher begins to suspect what the journey has suspected before -/
  | suspects (hposition : w'.position = w.position)
      (hsuspect : w'.suspect = j.suspect) (hnew : w.suspect ≠ j.suspect) :
    Along batch j w w' (.deliver [])
  | again (hstep : j.step batch = { j with position := w'.position })
      (hlt : w.position < w'.position)
    (hsuspect : w'.suspect = w.suspect) : Along batch j w w' .again
  | claim {id : Int} (hstep : j.step batch = { j with suspect := none, log := j.log.claimed id })
    (hposition : w'.position = w.position) (hsuspect : w'.suspect = none) :
    Along batch j w w' (.claim id)

/-- **A read takes a watcher along the journey.** -/
theorem along_of_judge (hnear : j.Near) (hposition : j.position = w.position)
    (hnearby : ∀ id, w.suspect = some id → id ≤ w.position + 1)
    (hsuspect : w.suspect = some (w.position + 1) → j.suspect = some (w.position + 1))
    (hsince : Store.since j.log j.position (max batch 1) = .ok rows) (hjudge : w.judge rows =
      (verdict, w')) :
    Along batch j w w' verdict := by
  have hstep := step_of_ok hsince
  rcases hjourney : j.watcher.judge rows with ⟨verdict', v⟩
  rw [hjourney] at hstep
  obtain ⟨hv, -, hverdict'⟩ := of_judge hjourney
  obtain ⟨hw, -, hverdict⟩ := of_judge hjudge
  have hsame : j.watcher.position = w.position := hposition
  have hle : w.position ≤ w'.position := by
    rw [hw]
    exact le_absorb w.position rows
  rw [hsame] at hv hverdict'
  have hreached : v.position = w'.position := hv.trans hw.symm
  generalize (absorb w.position rows).2.1 = taken at hverdict hverdict'
  generalize (absorb w.position rows).2.2 = missing at hverdict hverdict'
  -- both come to the same verdict, unless the watcher has forgotten what the journey suspects
  cases hverdict with
  | claim hmissing hnothing hsuspected hnone =>
    have hstays : w'.position = w.position := by
      have hnext := hnearby _ hsuspected
      omega
    have hknown : j.watcher.suspect = some (v.position + 1) := by
      rw [hreached, hstays]
      exact hsuspect (by rw [hsuspected, hstays])
    cases hverdict' with
    | claim hmissing' hnothing' hsuspected' hnone' =>
      refine .claim ?_ hstays hnone
      rw [hstep, take, hnone', hreached, hstays, ← hposition]
    | miss hmissing' hnew' hsuspected' => exact absurd ⟨hnothing, hknown⟩ hnew'
    | again hmissing' => rw [hmissing] at hmissing'; cases hmissing'
    | all hmissing' => rw [hmissing] at hmissing'; cases hmissing'
  | miss hmissing hnew hsuspected =>
    cases hverdict' with
    | claim hmissing' hnothing' hsuspected' hnone' =>
      have hstays : w'.position = w.position := by
        have hnext := hnear _ hsuspected'
        omega
      have hsuspects : j.suspect = some (w'.position + 1) := by
        rw [← hreached]
        exact hsuspected'
      rw [hnothing']
      refine .suspects hstays (hsuspected.trans hsuspects.symm) ?_
      rw [hsuspects]
      exact fun hknown => hnew ⟨hnothing', hknown⟩
    | miss hmissing' hnew' hsuspected' =>
      refine .deliver ?_
      rw [hstep, take, hsuspected', hsuspected, hreached]
    | again hmissing' => rw [hmissing] at hmissing'; cases hmissing'
    | all hmissing' => rw [hmissing] at hmissing'; cases hmissing'
  | again hmissing hnothing hlt hsuspected =>
    cases hverdict' with
    | claim hmissing' => rw [hmissing] at hmissing'; cases hmissing'
    | miss hmissing' => rw [hmissing] at hmissing'; cases hmissing'
    | again hmissing' hnothing' hlt' hsuspected' =>
      refine .again ?_ hlt hsuspected
      rw [hstep, take, hsuspected', hreached]
      rfl
    | all hmissing' hsome' => exact absurd ⟨hnothing, by omega⟩ hsome'
  | all hmissing hsome hnone =>
    cases hverdict' with
    | claim hmissing' => rw [hmissing] at hmissing'; cases hmissing'
    | miss hmissing' => rw [hmissing] at hmissing'; cases hmissing'
    | again hmissing' hnothing' hlt' => exact absurd ⟨hnothing', by omega⟩ hsome
    | all hmissing' hsome' hnone' =>
      refine .deliver ?_
      rw [hstep, take, hnone', hnone, hreached]

/-- What the journey suspects stays the next id, or behind. -/
theorem Near.step (h : j.Near) (batch : Nat) : (j.step batch).Near := by
  rcases hsince : Store.since j.log j.position (max batch 1) with e | rows
  · rw [step_of_error hsince]
    exact h
  · rw [step_of_ok hsince]
    rcases hjudge : j.watcher.judge rows with ⟨verdict, v⟩
    obtain ⟨-, -, hverdict⟩ := of_judge hjudge
    intro id hid
    cases hverdict with
    | claim hmissing hnothing hsuspect hnone =>
      have hid' : v.suspect = some id := hid
      rw [hnone] at hid'
      cases hid'
    | miss hmissing hnew hsuspect =>
      have hid' : v.suspect = some id := hid
      rw [hsuspect] at hid'
      exact Int.le_of_eq (Option.some.inj hid').symm
    | again hmissing hnothing hlt hsuspect =>
      have hid' : v.suspect = some id := hid
      have hle := h id (hsuspect.symm.trans hid')
      have hlt' : j.position < v.position := hlt
      show id ≤ v.position + 1
      omega
    | all hmissing hsome hnone =>
      have hid' : v.suspect = some id := hid
      rw [hnone] at hid'
      cases hid'

/-- Nothing that was shown is taken back. -/
theorem shown_prefix_step (j : Journey) (batch : Nat) : j.shown <+: (j.step batch).shown := by
  rw [step]
  split
  · exact List.prefix_refl _
  · unfold take
    split
    · exact List.prefix_append _ _
    · exact List.prefix_refl _
    · exact List.prefix_refl _

theorem shown_prefix_iterate (j : Journey) (batch : Nat) {m n : Nat} (hle : m ≤ n) :
    ((step batch)^[m] j).shown <+: ((step batch)^[n] j).shown := by
  induction n, hle using Nat.le_induction with
  | base => exact List.prefix_refl _
  | succ n _ ih =>
    rw [Function.iterate_succ_apply']
    exact ih.trans (shown_prefix_step _ batch)

/-- The rows at the position of a journey cannot be read. -/
def IsStuck (batch : Nat) (j : Journey) : Prop :=
  ∃ e, Store.since j.log j.position (max batch 1) = .error e

/-- A journey that is stuck never goes on. -/
theorem IsStuck.iterate (h : j.IsStuck batch) (n : Nat) : (step batch)^[n] j = j := by
  obtain ⟨e, hsince⟩ := h
  exact Function.iterate_fixed (step_of_error hsince) n

/-- Where a journey is stuck, all is shown that it ever shows. -/
theorem IsStuck.shown_prefix {n : Nat} (h : ((step batch)^[n] j).IsStuck batch) (m : Nat) :
    ((step batch)^[m] j).shown <+: ((step batch)^[n] j).shown := by
  rcases Nat.le_total m n with hle | hle
  · exact shown_prefix_iterate j batch hle
  · obtain ⟨more, rfl⟩ := Nat.exists_eq_add_of_le' hle
    have hsame : (step batch)^[more + n] j = (step batch)^[n] j := by
      rw [Function.iterate_add_apply, h.iterate]
    exact ⟨[], by rw [List.append_nil, hsame]⟩

end Journey

/-! ## A watcher on its journey -/

namespace Scene

/-- Others leave the log alone. -/
def IsQuiet (s : Scene) : Prop := ∀ d ∈ s.disturbances, d.change = id

/-- Nothing fails either. -/
def IsSmooth (s : Scene) : Prop := ∀ d ∈ s.disturbances, d.change = id ∧ d.failure = none

variable {s s' : Scene} {batch fuel : Nat} {w w' : Watcher} {position : Int}

theorem IsSmooth.quiet (h : s.IsSmooth) : s.IsQuiet := fun d hd => (h d hd).1

/-- What is still to happen was to happen before. -/
theorem disturbances_disturb_subset (s : Scene) : s.disturb.2.disturbances ⊆ s.disturbances := by
  rw [disturb]
  split
  · exact List.Subset.refl _
  · next d rest hrest =>
    rw [hrest]
    exact List.subset_cons_self d rest

theorem IsQuiet.log_disturb (h : s.IsQuiet) : s.disturb.2.log = s.log := by
  rw [disturb]
  split
  · rfl
  · next d rest hrest =>
    have hd := h d (by rw [hrest]; exact List.mem_cons_self)
    show d.change s.log = s.log
    rw [hd]
    rfl

theorem IsSmooth.failure_disturb (h : s.IsSmooth) : s.disturb.1 = none := by
  rw [disturb]
  split
  · rfl
  · next d rest hrest => exact (h d (by rw [hrest]; exact List.mem_cons_self)).2

theorem disturbances_read_subset {answer : Except Error (List Entry)}
    (hread : (source batch).read position s = (answer, s')) : s'.disturbances ⊆ s.disturbances := by
  obtain ⟨rfl, -⟩ := of_read hread
  rw [disturbances_note]
  exact s.disturbances_disturb_subset

theorem disturbances_claim_subset {id : Int} {answer : Except Error Unit}
    (hclaim : (source batch).claim id s = (answer, s')) : s'.disturbances ⊆ s.disturbances := by
  obtain ⟨after, rfl, -⟩ := of_claim hclaim
  rw [disturbances_note]
  exact s.disturbances_disturb_subset

/-- A read where others leave the log alone. -/
theorem IsQuiet.read (h : s.IsQuiet) {answer : Except Error (List Entry)}
    (hread : (source batch).read position s = (answer, s')) :
    s'.log = s.log ∧ s'.IsQuiet ∧
      ∀ rows, answer = .ok rows → Store.since s.log position (max batch 1) = .ok rows := by
  refine ⟨?_, fun d hd => h d (disturbances_read_subset hread hd), ?_⟩ <;> obtain ⟨rfl, hanswer⟩ :=
    of_read hread
  · rw [log_note, h.log_disturb]
  · rintro rows rfl
    rw [h.log_disturb] at hanswer
    exact of_outcome_eq_ok hanswer.symm

/-- A claim where others leave the log alone. -/
theorem IsQuiet.claim (h : s.IsQuiet) {id : Int} {answer : Except Error Unit}
    (hclaim : (source batch).claim id s = (answer, s')) :
    s'.IsQuiet ∧
      (answer = .ok () ∧ s'.log = s.log.claimed id ∨ (∃ e, answer = .error e) ∧
        s'.log = s.log) := by
  refine ⟨fun d hd => h d (disturbances_claim_subset hclaim hd), ?_⟩
  obtain ⟨after, rfl, hafter⟩ := of_claim hclaim
  rw [h.log_disturb] at hafter
  rw [log_note, Log.claimed]
  rcases hafter with ⟨hok, hmade⟩ | ⟨⟨e, he, -⟩, hsame⟩
  · rw [of_outcome_eq_ok hmade]
    exact Or.inl ⟨hok, rfl⟩
  · exact Or.inr ⟨⟨e, he⟩, hsame⟩

/-- Where nothing fails, a read answers what is there. -/
theorem IsSmooth.read (h : s.IsSmooth) {answer : Except Error (List Entry)}
    (hread : (source batch).read position s = (answer, s')) :
    s'.IsSmooth ∧ answer = Store.since s.log position (max batch 1) := by
  refine ⟨fun d hd => h d (disturbances_read_subset hread hd), ?_⟩
  obtain ⟨-, hanswer⟩ := of_read hread
  rwa [h.failure_disturb, h.quiet.log_disturb] at hanswer

/-- Where nothing fails, a claim is in order. -/
theorem IsSmooth.claim (h : s.IsSmooth) {id : Int} {answer : Except Error Unit}
    (hclaim : (source batch).claim id s = (answer, s')) :
    s'.IsSmooth ∧ settled answer = none ∧ s'.log = s.log.claimed id := by
  refine ⟨fun d hd => h d (disturbances_claim_subset hclaim hd), ?_⟩
  obtain ⟨after, rfl, hafter⟩ := of_claim hclaim
  rw [h.failure_disturb, h.quiet.log_disturb] at hafter
  rw [log_note, Log.claimed]
  rcases hafter with ⟨rfl, hfill⟩ | ⟨⟨e, rfl, hfill⟩, hsame⟩
  · have hfill : Store.fill s.log id = .ok after := hfill
    rw [hfill]
    exact ⟨rfl, rfl⟩
  · have hfill : Store.fill s.log id = .error e := hfill
    rcases s.log.fill_cases id with ⟨log, hfills⟩ | hlost
    · rw [hfills] at hfill
      cases hfill
    · rw [hlost] at hfill ⊢
      cases hfill
      exact ⟨rfl, hsame⟩

end Scene

/-! ### Fetches -/

namespace Journey

variable {batch fuel : Nat} {j : Journey} {w w' : Watcher} {s s' : Scene} {suspect : Option Int}
  {position : Int} {es : List Entry}

/-- A watcher that handed out or holds back what the journey has shown stands where the journey
does, and suspects no more than the journey does. Others leave the log alone. -/
structure Abreast (j : Journey) (suspect : Option Int) (position : Int) (es : List Entry)
    (s : Scene) : Prop where
  journey : j.Near
  here : j.position = position
  log : j.log = s.log
  shown : j.shown = es
  near : ∀ id, suspect = some id → id ≤ position + 1
  known : suspect = some (position + 1) → j.suspect = some (position + 1)
  quiet : s.IsQuiet

namespace Abreast

/-- Of what a watcher runs in, the log counts. -/
theorem of_log_eq (h : j.Abreast suspect position es s) (hlog : s'.log = s.log)
    (hquiet : s'.IsQuiet) :
    j.Abreast suspect position es s' := { h with log := h.log.trans hlog.symm, quiet := hquiet }

/-- A watcher may forget what it suspects. -/
theorem forget (h : j.Abreast suspect position es s) : j.Abreast none position es s :=
  { h with
    near := fun _ hid => by cases hid
    known := fun hid => by cases hid }

/-- A watcher may know all that the journey does. -/
theorem remember (h : j.Abreast suspect position es s) : j.Abreast j.suspect position es s :=
  { h with
    near := by
      rw [← h.here]
      exact h.journey
    known := fun hid => hid }

theorem deliver (h : j.Abreast suspect position es s) {delivered : List Entry}
    (hstep : j.step batch =
      { j with suspect := w'.suspect, position := w'.position, shown := j.shown ++ delivered }) :
    (j.step batch).Abreast w'.suspect w'.position (es ++ delivered) s := by
  have hjourney := h.journey.step batch
  rw [hstep] at hjourney ⊢
  exact
    { journey := hjourney
      here := rfl
      log := h.log
      shown := by rw [h.shown]
      near := hjourney
      known := fun hid => hid
      quiet := h.quiet }

theorem again (h : j.Abreast suspect position es s)
    (hstep : j.step batch = { j with position := w'.position }) (hlt : position < w'.position) :
    (j.step batch).Abreast suspect w'.position es s := by
  have hjourney := h.journey.step batch
  rw [hstep] at hjourney ⊢
  refine ⟨hjourney, rfl, h.log, h.shown, ?near, ?known, h.quiet⟩
  case near =>
    intro id hid
    have hle := h.near id hid
    omega
  case known =>
    -- what was suspected lies behind now
    intro hid
    have hle := h.near _ hid
    omega

theorem claim (h : j.Abreast suspect position es s) {id : Int}
    (hstep : j.step batch = { j with suspect := none, log := j.log.claimed id })
    (hlog : s'.log = s.log.claimed id)
    (hquiet : s'.IsQuiet) : (j.step batch).Abreast none position es s' := by
  rw [hstep]
  exact
    { journey := fun _ hid => by cases hid
      here := h.here
      log := by rw [hlog, ← h.log]
      shown := h.shown
      near := fun _ hid => by cases hid
      known := fun hid => by cases hid
      quiet := hquiet }

end Abreast

/-- What a watcher has gained that suspected something before: the journey went on some steps, or it
cannot, or the watcher knows again what it had forgotten. -/
def Gains (batch : Nat) (j : Journey) (before after : Option Int) (n : Nat) : Prop :=
  0 < n ∨ j.IsStuck batch ∨ n = 0 ∧ before ≠ j.suspect ∧ after = j.suspect

/-- Where a fetch comes to along a journey. Where nothing fails, it gets on, unless the journey
cannot. -/
structure Reaches (batch fuel : Nat) (j : Journey) (w w' : Watcher)
    (outcome : Except Error (List Entry)) (es : List Entry) (s s' : Scene) (n : Nat) : Prop where
  abreast : ((step batch)^[n] j).Abreast w'.suspect w'.position (es ++ given outcome) s'
  gains : s.IsSmooth → 0 < fuel → j.Gains batch w.suspect w'.suspect n
  stuck : s.IsSmooth → ∀ e, outcome = .error e → ((step batch)^[n] j).IsStuck batch

namespace Reaches

variable {outcome : Except Error (List Entry)} {n : Nat}

/-- A fetch that goes on where the journey made a step. -/
theorem succ {v : Watcher} {between : Scene} {fuel' : Nat}
    (h : Reaches batch fuel (j.step batch) v w' outcome es between s' n)
    (hsmooth : s.IsSmooth → between.IsSmooth) :
    Reaches batch fuel' j w w' outcome es s s' (n + 1) where
  abreast := h.abreast
  gains _ _ := Or.inl n.succ_pos
  stuck hs := h.stuck (hsmooth hs)

/-- Where something failed, it is enough that the fetch comes to the journey. -/
theorem of_not_isSmooth
    (h : ((step batch)^[n] j).Abreast w'.suspect w'.position (es ++ given outcome) s')
    (hfailed : ¬s.IsSmooth) : Reaches batch fuel j w w' outcome es s s' n where
  abreast := h
  gains hs := absurd hs hfailed
  stuck hs := absurd hs hfailed

end Reaches

namespace Abreast

variable {s₁ s₂ : Scene} {w₁ : Watcher} {rows : List Entry} {outcome : Except Error (List Entry)}

/-- After a read the watcher is where it was, and the verdict takes it along the journey. -/
theorem read (h : j.Abreast w.suspect w.position es s)
    (hread : (Scene.source batch).read w.position s = (.ok rows, s₁))
    {verdict : Verdict} (hjudge : w.judge rows = (verdict, w₁)) :
    j.Abreast w.suspect w.position es s₁ ∧ Along batch j w w₁ verdict := by
  obtain ⟨hlog, hquiet, hanswer⟩ := h.quiet.read hread
  refine ⟨h.of_log_eq hlog hquiet, along_of_judge h.journey h.here h.near h.known ?_ hjudge⟩
  rw [h.here, h.log]
  exact hanswer rows rfl

/-- A read that failed moves nothing, and tells that the journey is stuck if nothing fails. -/
theorem unread (h : j.Abreast w.suspect w.position es s) {e : Error}
    (hread : (Scene.source batch).read w.position s = (.error e, s₁)) :
    Reaches batch fuel j w w (.error e) es s s₁ 0 := by
  obtain ⟨hlog, hquiet, -⟩ := h.quiet.read hread
  have hstuck : s.IsSmooth → j.IsStuck batch := by
    intro hs
    refine ⟨e, ?_⟩
    rw [h.here, h.log]
    exact (hs.read hread).2.symm
  refine ⟨?_, fun hs _ => Or.inr (Or.inl (hstuck hs)), fun hs _ _ => hstuck hs⟩
  rw [given, List.append_nil]
  exact h.of_log_eq hlog hquiet

theorem delivered (h : j.Abreast w.suspect w.position es s)
    (hread : (Scene.source batch).read w.position s = (.ok rows, s₁)) {taken : List Entry}
    (hjudge : w.judge rows = (.deliver taken, w₁)) :
    ∃ n, Reaches batch fuel j w w₁ (.ok taken) es s s₁ n := by
  obtain ⟨hbetween, halong⟩ := h.read hread hjudge
  cases halong with
  | deliver hstep =>
    exact ⟨1, hbetween.deliver hstep, fun _ _ => Or.inl Nat.one_pos, fun _ e he => by cases he⟩
  | suspects hposition hsuspect hnew =>
    refine ⟨0, ?_, fun _ _ => Or.inr (Or.inr ⟨rfl, hnew, hsuspect⟩), fun _ e he => by cases he⟩
    rw [given, List.append_nil, hsuspect, hposition]
    exact hbetween.remember

/-- A claim is the claim of the journey, unless it came to nothing: then the watcher has only to
suspect the id again. So it is also with a claim that is refused as lost although nobody else has
written the row. -/
theorem claimed (h : j.Abreast w.suspect w.position es s)
    (hread : (Scene.source batch).read w.position s = (.ok rows, s₁)) {id : Int}
    (hjudge : w.judge rows = (.claim id, w₁)) {answer : Except Error Unit}
    (hclaim : (Scene.source batch).claim id s₁ = (answer, s₂)) :
    (j.step batch).Abreast w₁.suspect w₁.position es s₂ ∨
      j.Abreast w₁.suspect w₁.position es s₂ ∧ ¬s.IsSmooth := by
  obtain ⟨hbetween, halong⟩ := h.read hread hjudge
  obtain ⟨hquiet, hmade⟩ := hbetween.quiet.claim hclaim
  cases halong with
  | claim hstep hposition hsuspect =>
    rw [hsuspect, hposition]
    by_cases hdone : s₂.log = s₁.log.claimed id
    · exact Or.inl (hbetween.claim hstep hdone hquiet)
    · rcases hmade with ⟨-, hmade⟩ | ⟨-, hsame⟩
      · exact absurd hmade hdone
      · refine Or.inr ⟨(hbetween.of_log_eq hsame hquiet).forget, fun hs => ?_⟩
        exact hdone ((hs.read hread).1.claim hclaim).2.2

/-- A claim that failed costs the suspicion. -/
theorem unclaimed (h : j.Abreast w.suspect w.position es s)
    (hread : (Scene.source batch).read w.position s = (.ok rows, s₁)) {id : Int}
    (hjudge : w.judge rows = (.claim id, w₁)) {answer : Except Error Unit}
    (hclaim : (Scene.source batch).claim id s₁ = (answer, s₂)) {e : Error}
    (hsettled : settled answer = some e) :
    ∃ n, Reaches batch fuel j w w₁ (.error e) es s s₂ n := by
  have hfailed : ¬s.IsSmooth := by
    intro hs
    rw [((hs.read hread).1.claim hclaim).2.1] at hsettled
    cases hsettled
  rcases h.claimed hread hjudge hclaim with hclaimed | ⟨hforgets, -⟩
  · refine ⟨1, .of_not_isSmooth ?_ hfailed⟩
    rw [given, List.append_nil]
    exact hclaimed
  · refine ⟨0, .of_not_isSmooth ?_ hfailed⟩
    rw [given, List.append_nil]
    exact hforgets

/-- **A fetch takes a watcher along the journey.** Where nothing fails, it gets on. -/
theorem fetch (h : j.Abreast w.suspect w.position es s)
    (hfetch : Fetched (Scene.source batch) fuel w s outcome w' s') :
    ∃ n, Reaches batch fuel j w w' outcome es s s' n := by
  induction hfetch generalizing j with
  | spent =>
    refine ⟨0, ?_, fun _ hpos => absurd hpos (Nat.lt_irrefl 0), fun _ e he => by cases he⟩
    rw [given, List.append_nil]
    exact h
  | unread hread => exact ⟨0, h.unread hread⟩
  | delivered hread hjudge => exact h.delivered hread hjudge
  | again hread hjudge hrest ih =>
    obtain ⟨hbetween, halong⟩ := h.read hread hjudge
    cases halong with
    | again hstep hlt hsuspect =>
      have hmoved := hbetween.again hstep hlt
      rw [← hsuspect] at hmoved
      obtain ⟨n, hreaches⟩ := ih hmoved
      exact ⟨n + 1, hreaches.succ fun hs => (hs.read hread).1⟩
  | claimed hread hjudge hclaim hsettled hrest ih =>
    rcases h.claimed hread hjudge hclaim with hclaimed | ⟨hforgets, hfailed⟩
    · obtain ⟨n, hreaches⟩ := ih hclaimed
      exact ⟨n + 1, hreaches.succ fun hs => ((hs.read hread).1.claim hclaim).1⟩
    · obtain ⟨n, hreaches⟩ := ih hforgets
      exact ⟨n, .of_not_isSmooth hreaches.abreast hfailed⟩
  | unclaimed hread hjudge hclaim hsettled => exact h.unclaimed hread hjudge hclaim hsettled

end Abreast

end Journey

end RevisionLog
