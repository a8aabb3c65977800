import RevisionLog.Proofs.Journey

/-!
# Failures of a watcher

Failures cost a watcher no entry, as long as others leave the log alone: what it hands out is the
beginning of what it hands out where nothing fails. An error that is final ends the watcher, and is
told once.

* `Journey.keeps_follows` — whatever fails, pulls take a watcher along its journey.
* `Journey.GetsOn` — where nothing fails, every poll takes it on, unless the journey comes to its
  end.
* `Trial.EndsOnce` — what is promised of errors.
* `Trial.failures_cost_nothing` — the promise holds, and failures cost no entry.
-/

namespace RevisionLog

open Store Watcher

/-! ## Pulls along a journey -/

namespace Scene

/-- Nothing fails, and nothing ends the pauses. -/
structure IsCalm (s : Scene) : Prop where
  smooth : s.IsSmooth
  rests : ∀ cause, .stopped cause ∉ s.rests

variable {s s' : Scene} {batch : Nat}

@[simp] theorem rests_disturb (s : Scene) : s.disturb.2.rests = s.rests := by
  unfold disturb
  split <;> rfl

theorem IsCalm.read (h : s.IsCalm) (batch : Nat) (position : Int) :
    ((source batch).read position s).2.IsCalm := by
  rcases hread : (source batch).read position s with ⟨answer, s'⟩
  refine ⟨(h.smooth.read hread).1, ?_⟩
  obtain ⟨rfl, -⟩ := of_read hread
  simpa using h.rests

theorem IsCalm.claim (h : s.IsCalm) (batch : Nat) (id : Int) :
    ((source batch).claim id s).2.IsCalm := by
  rcases hclaim : (source batch).claim id s with ⟨answer, s'⟩
  refine ⟨(h.smooth.claim hclaim).1, ?_⟩
  obtain ⟨after, rfl, -⟩ := of_claim hclaim
  simpa using h.rests

end Scene

namespace Journey

variable {batch fuel m : Nat} {bound : Log → Nat} {j : Journey} {w w' : Watcher} {s s' : Scene}
  {ended : Bool} {suspect : Option Int} {position : Int} {es : List Entry}

/-- A watcher stands somewhere on a journey. -/
def Follows (batch : Nat) (j : Journey) (suspect : Option Int) (position : Int) (es : List Entry)
    (s : Scene) : Prop :=
  ∃ n, ((step batch)^[n] j).Abreast suspect position es s

/-- **Whatever fails, pulls take a watcher along its journey.** -/
theorem keeps_follows (batch : Nat) (bound : Log → Nat) (j : Journey) :
    Keeps (Scene.source batch) Scene.pause (Scene.bounded bound) (fun _ => True) fun _ =>
      j.Follows batch := by
  refine Keeps.regardless ?readies ?fetches ?pauses
  case readies =>
    rintro _ _ _ s ⟨n, h⟩
    exact ⟨⟨n, h.of_log_eq rfl h.quiet⟩, trivial⟩
  case fetches =>
    rintro fuel w es s outcome w' s' ⟨n, h⟩ - hfetch
    obtain ⟨k, hreaches⟩ := h.fetch hfetch
    refine ⟨k + n, ?_⟩
    rw [Function.iterate_add_apply]
    exact hreaches.abreast
  case pauses =>
    rintro _ _ _ s ⟨n, h⟩
    unfold Scene.pause
    split
    · exact ⟨n, h⟩
    · exact ⟨n, h.of_log_eq rfl h.quiet⟩

/-- A watcher that is pulled where nothing fails stands on its journey, so many pulls on at least: a
step of the journey takes two of them, since the watcher may have to suspect an id again. Where the
journey is stuck, it goes no further. -/
structure GetsOn (batch : Nat) (j : Journey) (m : Nat) (ended : Bool) (suspect : Option Int)
    (position : Int) (es : List Entry) (s : Scene) : Prop where
  calm : s.IsCalm
  follows : ∃ n, ((step batch)^[n] j).Abreast suspect position es s ∧
    (ended = true → ((step batch)^[n] j).IsStuck batch) ∧
    (((step batch)^[n] j).IsStuck batch ∨ m ≤ 2 * n + if suspect = ((step batch)^[n] j).suspect then
      1 else 0)

namespace GetsOn

theorem mono (h : GetsOn batch j (m + 1) ended suspect position es s) :
    GetsOn batch j m ended suspect position es s := by
  obtain ⟨n, habreast, hended, hfar⟩ := h.follows
  exact ⟨h.calm, n, habreast, hended, hfar.imp_right Nat.le_of_succ_le⟩

theorem of_log_eq (h : GetsOn batch j m ended suspect position es s) (hlog : s'.log = s.log)
    (hcalm : s'.IsCalm) : GetsOn batch j m ended suspect position es s' := by
  obtain ⟨n, habreast, hrest⟩ := h.follows
  exact ⟨hcalm, n, habreast.of_log_eq hlog hcalm.smooth.quiet, hrest⟩

/-- A watcher that has ended has nowhere to go. -/
theorem of_ended (h : GetsOn batch j m true suspect position es s) (m : Nat) :
    GetsOn batch j m true suspect position es s := by
  obtain ⟨n, habreast, hended, -⟩ := h.follows
  exact ⟨h.calm, n, habreast, hended, Or.inl (hended rfl)⟩

/-- **A fetch where nothing fails gets a watcher on.** An error tells that the journey is stuck. -/
theorem fetch (h : GetsOn batch j m false w.suspect w.position es s)
    {outcome : Except Error (List Entry)}
    (hfetch : Fetched (Scene.source batch) (fuel + 1) w s outcome w' s') (ended : Bool)
    (hended : ended = true → ∃ e, outcome = .error e) :
    GetsOn batch j (m + 1) ended w'.suspect w'.position (es ++ given outcome) s' := by
  obtain ⟨n, habreast, -, hfar⟩ := h.follows
  obtain ⟨k, hreaches⟩ := habreast.fetch hfetch
  have hsmooth := h.calm.smooth
  refine ⟨hfetch.invariant (fun position s h => h.read batch position)
    (fun id s h => h.claim batch id) h.calm, k + n, ?_⟩
  rw [Function.iterate_add_apply]
  refine ⟨hreaches.abreast, ?_, ?_⟩
  · intro hend
    obtain ⟨e, he⟩ := hended hend
    exact hreaches.stuck hsmooth e he
  · rcases hfar with hstuck | hfar
    · exact Or.inl (by rwa [hstuck.iterate])
    rcases hreaches.gains hsmooth fuel.succ_pos with hsteps | hstuck | ⟨rfl, hnew, hknown⟩
    · refine Or.inr ?_
      split at hfar <;> omega
    · exact Or.inl (by rwa [hstuck.iterate])
    · rw [if_neg hnew] at hfar
      refine Or.inr ?_
      rw [Function.iterate_zero, id, if_pos hknown]
      omega

/-- **A poll where nothing fails gets a watcher on** that holds nothing back. -/
theorem poll {delivered : List Entry} (h : Property.Of (GetsOn batch j m) w delivered s)
    (hnone : w.pending = []) {outcome : Except Error (List Entry)}
    (hpoll : Polled (Scene.source batch) (fuel + 1) w s outcome w' s') :
    Property.Of (GetsOn batch j (m + 1)) w' (delivered ++ given outcome) s' := by
  have hstands := h.2
  rw [hnone, List.append_nil] at hstands
  cases hpoll with
  | flushed hsome => exact absurd hnone hsome
  | ended hended =>
    rw [hended.1] at hstands
    refine ⟨fun _ => hnone, ?_⟩
    rw [hended.1, hnone, given, List.append_nil, List.append_nil]
    exact hstands.of_ended _
  | fetched hopen _ hfetch hopen' hnone' =>
    rw [hopen] at hstands
    refine .open_ hopen' ?_
    rw [hnone', List.append_nil]
    exact hstands.fetch hfetch false fun hend => by cases hend
  | failed hopen _ hfetch hopen' hnone' =>
    rw [hopen] at hstands
    have hgoes := fun ended => hstands.fetch hfetch ended fun _ => ⟨_, rfl⟩
    exact .fail hopen' hnone' (hgoes false) fun _ => hgoes true

/-- Pulls where nothing fails do not take a watcher back. -/
theorem keeps (batch : Nat) (bound : Log → Nat) (j : Journey) (m : Nat) :
    Keeps (Scene.source batch) Scene.pause (Scene.bounded bound) (fun _ => True)
      (GetsOn batch j m) where
  readies h := ⟨h.of_log_eq rfl ⟨h.calm.smooth, h.calm.rests⟩, trivial⟩
  fetches := by
    rintro (_ | fuel) w es s outcome w' s' h - hfetch
    · cases hfetch
      rw [given, List.append_nil]
      exact h
    · exact (h.fetch hfetch false fun hend => by cases hend).mono
  pauses := by
    rintro ended suspect position es s h
    unfold Scene.pause
    split
    · exact h
    · next rest rests hrests =>
      refine h.of_log_eq rfl ⟨h.calm.smooth, fun cause hmem => ?_⟩
      exact h.calm.rests cause (by rw [hrests]; exact List.mem_cons_of_mem rest hmem)
  ends := by
    rintro (_ | fuel) w es s e w' s' h - hfetch hfinal
    · cases hfetch
    · have hgoes := (h.fetch hfetch true fun _ => ⟨e, rfl⟩).mono
      rwa [given, List.append_nil] at hgoes
  stops := by
    -- no pause is stopped
    intro suspect position es s cause h hstopped
    unfold Scene.pause at hstopped
    split at hstopped
    · cases hstopped
    · next rest rests hrests =>
      have hmem : Rest.stopped cause ∈ s.rests := by
        rw [hrests, ← hstopped]
        exact List.mem_cons_self
      exact absurd hmem (h.calm.rests cause)

end GetsOn

end Journey

/-! ## What is promised of errors -/

namespace Pulling

/-- Others leave the log alone. -/
def IsQuiet (p : Pulling) : Prop := ∀ d ∈ p.disturbances, d.change = id

/-- The pauses of a pull. -/
def rests : Pulling → List Rest
  | poll _ => []
  | next _ _ rests => rests

/-- Nothing fails either, and nothing ends the pauses. -/
structure IsCalm (p : Pulling) : Prop where
  smooth : ∀ d ∈ p.disturbances, d.change = id ∧ d.failure = none
  rests : ∀ cause, .stopped cause ∉ p.rests

end Pulling

namespace Upshot

/-- An error that is told, and that is final. -/
def isFinal : Upshot → Bool
  | polled (.ok _) => false
  | polled (.error e) => e.isTerminal
  | pulled pull => pull.isFinal

/-- Nothing is told. -/
def IsSilent (u : Upshot) : Prop := u = polled (.ok []) ∨ u = pulled .ended

theorem IsSilent.isFinal_eq {u : Upshot} (h : u.IsSilent) : u.isFinal = false := by
  rcases h with rfl | rfl <;> rfl

end Upshot

namespace Trial

variable {batch : Nat} {bound : Log → Nat} {t : Trial} {j : Journey} {m : Nat}

/-- What is promised of the errors of a watcher, whatever happens. -/
structure EndsOnce (t : Trial) : Prop where
  /-- waiting tells of no error that is not final -/
  waits : ∀ e, .pulled (.failed e) ∈ t.upshots → e.isTerminal = true
  /-- a watcher has ended just if it told of an error that is final -/
  told : t.watcher.done = t.upshots.any Upshot.isFinal
  /-- then it holds nothing back -/
  idle : t.watcher.done = true → t.watcher.pending = []
  /-- and has nothing more to tell -/
  silent : t.upshots.Pairwise fun u v => u.isFinal = true → v.IsSilent

/-- What a pull does is told. -/
theorem pull_eq (batch : Nat) (bound : Log → Nat) (t : Trial) (p : Pulling) :
    ∃ u, (t.pull batch bound p).upshots = t.upshots ++ [u] ∧
      (t.pull batch bound p).watcher.done = (t.watcher.done || u.isFinal) ∧
      (∀ e, u = .pulled (.failed e) → e.isTerminal = true) ∧
      (t.watcher.HasEnded → u.IsSilent ∧ (t.pull batch bound p).watcher = t.watcher) := by
  cases p with
  | poll disturbances =>
    rw [pull]
    rcases hbounded : Scene.bounded bound (Pulling.stage t.scene (.poll disturbances)) with
      ⟨fuel, scene⟩
    dsimp only
    rcases hpoll : Watcher.poll (Scene.source batch) fuel t.watcher scene with
      ⟨⟨outcome, watcher⟩, scene'⟩
    refine ⟨.polled outcome, rfl, ?_, (fun e he => by cases he), ?_⟩
    · rw [(polled_of_poll hpoll).done_eq]
      rcases outcome with e | taken <;> rfl
    · intro hended
      rw [hended.poll_eq] at hpoll
      cases hpoll
      exact ⟨Or.inl rfl, rfl⟩
  | next rounds disturbances rests =>
    rw [pull]
    rcases hnext : Watcher.next (Scene.source batch) Scene.pause (Scene.bounded bound)
      (rounds + 1) t.watcher
      (Pulling.stage t.scene (.next rounds disturbances rests)) with ⟨⟨pulled, watcher⟩, scene'⟩
    obtain ⟨hdone, hfinal⟩ := done_of_next hnext
    refine ⟨.pulled pulled, rfl, hdone, ?_, ?_⟩
    · rintro e ⟨⟩
      exact hfinal e rfl
    · intro hended
      rw [hended.next_eq] at hnext
      cases hnext
      exact ⟨Or.inr rfl, rfl⟩

theorem run_append (batch : Nat) (bound : Log → Nat) (t : Trial) (pulls more : List Pulling) :
    t.run batch bound (pulls ++ more) = (t.run batch bound pulls).run batch bound more :=
  List.foldl_append

/-- A pull of a watcher that has ended leaves it as it is. -/
theorem watcher_run_of_hasEnded (h : t.watcher.HasEnded) (batch : Nat) (bound : Log → Nat)
    (pulls : List Pulling) : (t.run batch bound pulls).watcher = t.watcher := by
  induction pulls generalizing t with
  | nil => rfl
  | cons p pulls ih =>
    obtain ⟨u, -, -, -, hends⟩ := pull_eq batch bound t p
    have hsame := (hends h).2
    exact (ih (t := t.pull batch bound p) (by rwa [hsame])).trans hsame

namespace EndsOnce

theorem hasEnded (h : t.EndsOnce) (hfinal : t.upshots.any Upshot.isFinal = true) :
    t.watcher.HasEnded :=
  have hdone := h.told.trans hfinal
  ⟨hdone, h.idle hdone⟩

/-- **A pull keeps the promise.** -/
theorem pull (h : t.EndsOnce) (p : Pulling) : (t.pull batch bound p).EndsOnce := by
  obtain ⟨u, hupshots, hdone, hfailed, hends⟩ := pull_eq batch bound t p
  have hkeeps :
      Keeps (Scene.source batch) Scene.pause (Scene.bounded bound) (fun _ => True) fun _ _ _ _ _ =>
        True :=
    Keeps.regardless (fun _ => ⟨trivial, trivial⟩) (fun _ _ _ => trivial) fun _ => trivial
  refine
    { waits := ?waits
      told := ?told
      idle := (keeps_pull hkeeps (fun _ => trivial) ⟨h.idle, trivial⟩).1
      silent := ?silent }
  case waits =>
    intro e hmem
    rw [hupshots, List.mem_append, List.mem_singleton] at hmem
    rcases hmem with hmem | hlast
    · exact h.waits e hmem
    · exact hfailed e hlast.symm
  case told => simp [hdone, hupshots, h.told]
  case silent =>
    rw [hupshots, List.pairwise_append]
    refine ⟨h.silent, List.pairwise_singleton _ u, ?_⟩
    intro v hv _ hu hfinal
    obtain rfl := List.mem_singleton.1 hu
    exact (hends (h.hasEnded (List.any_eq_true.2 ⟨v, hv, hfinal⟩))).1

theorem run (h : t.EndsOnce) (pulls : List Pulling) : (t.run batch bound pulls).EndsOnce := by
  induction pulls generalizing t with
  | nil => exact h
  | cons p pulls ih => exact ih (h.pull p)

theorem start (log : Log) (revision : Int) : (Trial.start log revision).EndsOnce where
  waits e hmem := by cases hmem
  told := rfl
  idle _ := rfl
  silent := .nil

/-- At most one error that is final is told. -/
theorem countP_le_one (h : t.EndsOnce) : t.upshots.countP Upshot.isFinal ≤ 1 := by
  have hsilent := h.silent
  generalize t.upshots = upshots at hsilent
  induction upshots with
  | nil => exact Nat.zero_le 1
  | cons u upshots ih =>
    obtain ⟨hlater, hrest⟩ := List.pairwise_cons.1 hsilent
    rw [List.countP_cons]
    split
    · next hfinal =>
      have hnone : upshots.countP Upshot.isFinal = 0 := by
        rw [List.countP_eq_zero]
        intro v hv
        rw [(hlater v hv hfinal).isFinal_eq]
        exact Bool.false_ne_true
      omega
    · exact ih hrest

end EndsOnce

/-! ## Failures cost nothing -/

/-- Where others leave the log alone, a watcher stands somewhere on its journey. -/
theorem follows_run (bound : Log → Nat) {pulls : List Pulling} (hquiet : ∀ p ∈ pulls, p.IsQuiet)
    (h : Property.Of (fun _ => j.Follows batch) t.watcher t.delivered t.scene) :
    Property.Of (fun _ => j.Follows batch) (t.run batch bound pulls).watcher
      (t.run batch bound pulls).delivered (t.run batch bound pulls).scene := by
  refine keeps_run (j.keeps_follows batch bound) pulls ?_ h
  rintro p hp _ _ _ _ s ⟨n, h⟩
  cases p <;> exact ⟨n, h.of_log_eq rfl (hquiet _ hp)⟩

/-- Where nothing fails, pulls do not take a watcher back. -/
theorem getsOn_run (bound : Log → Nat) {pulls : List Pulling} (hcalm : ∀ p ∈ pulls, p.IsCalm)
    (h : Property.Of (j.GetsOn batch m) t.watcher t.delivered t.scene) :
    Property.Of (j.GetsOn batch m) (t.run batch bound pulls).watcher
      (t.run batch bound pulls).delivered (t.run batch bound pulls).scene := by
  refine keeps_run (Journey.GetsOn.keeps batch bound j m) pulls ?_ h
  intro p hp _ _ _ _ s h
  have hp := hcalm p hp
  cases p with
  | poll disturbances => exact h.of_log_eq rfl ⟨hp.smooth, h.calm.rests⟩
  | next rounds disturbances rests => exact h.of_log_eq rfl ⟨hp.smooth, hp.rests⟩

/-- A poll where nothing fails leaves nothing that is held back, and gets a watcher on that held
nothing back. -/
theorem getsOn_poll (bound : Log → Nat)
    (h : Property.Of (j.GetsOn batch m) t.watcher t.delivered t.scene) :
    (t.pull batch bound (.poll [])).watcher.pending = [] ∧
      (t.watcher.pending = [] →
        Property.Of (j.GetsOn batch (m + 1)) (t.pull batch bound (.poll [])).watcher
        (t.pull batch bound (.poll [])).delivered (t.pull batch bound (.poll [])).scene) := by
  have hcalm : Scene.IsCalm { t.scene with disturbances := [], pages := [] :: t.scene.pages } :=
    ⟨(fun d hd => by cases hd), h.2.calm.rests⟩
  rw [pull]
  dsimp only [Scene.bounded, Pulling.stage, Scene.turnPage]
  rcases hpoll : Watcher.poll (Scene.source batch) (bound t.scene.log + 1) t.watcher
    { t.scene with disturbances := [], pages := [] :: t.scene.pages } with ⟨⟨outcome, watcher⟩,
      scene⟩
  refine ⟨(polled_of_poll hpoll).pending_eq, ?_⟩
  intro hnone
  have hbegun : Property.Of (j.GetsOn batch m) t.watcher t.delivered
      { t.scene with disturbances := [], pages := [] :: t.scene.pages } :=
        ⟨h.1, h.2.of_log_eq rfl hcalm⟩
  have hgoes := Journey.GetsOn.poll hbegun hnone (polled_of_poll hpoll)
  simpa [delivered, Upshot.entries] using hgoes

/-- **Polls where nothing fails get a watcher on**, one after the other, once it holds
nothing back. -/
theorem getsOn_polls (bound : Log → Nat)
    (h : Property.Of (j.GetsOn batch m) t.watcher t.delivered t.scene)
    (hnone : t.watcher.pending = []) (n : Nat) :
    Property.Of (j.GetsOn batch (m + n)) (t.run batch bound (List.replicate n (.poll []))).watcher
        (t.run batch bound (List.replicate n (.poll []))).delivered
        (t.run batch bound (List.replicate n (.poll []))).scene ∧
      (t.run batch bound (List.replicate n (.poll []))).watcher.pending = [] := by
  induction n generalizing t m with
  | zero => exact ⟨h, hnone⟩
  | succ n ih =>
    obtain ⟨hnone', hgoes⟩ := getsOn_poll bound h
    have hrest := ih (hgoes hnone) hnone'
    rwa [Nat.add_right_comm, Nat.add_assoc] at hrest

/-- At the start a watcher stands where its journey begins. -/
theorem abreast_start (log : Log) (revision : Int) :
    Journey.Abreast { position := max revision 0, log } none (max revision 0) [] { log } where
  journey _ hid := by cases hid
  here := rfl
  log := rfl
  shown := rfl
  near _ hid := by cases hid
  known hid := by cases hid
  quiet d hd := by cases hd

/-- **Failures cost nothing.** Where others leave the log alone, and whatever fails, what a
watcher hands out is the beginning of what it hands out where nothing fails and it is polled often
enough. -/
theorem exists_delivered_prefix (log : Log) (revision : Int) (batch : Nat) (bound : Log → Nat)
    {failing calm : List Pulling} (hquiet : ∀ p ∈ failing, p.IsQuiet)
    (hcalm : ∀ p ∈ calm, p.IsCalm) :
    ∃ n, ((start log revision).run batch bound failing).delivered <+:
      ((start log revision).run batch bound (calm ++ List.replicate n (.poll []))).delivered := by
  have hstart := abreast_start log revision
  set j : Journey := { position := max revision 0, log }
  have hbegins :
    Property.Of (fun _ => j.Follows batch) (start log revision).watcher
      (start log revision).delivered (start log revision).scene := of_start log revision ⟨0, hstart⟩
  obtain ⟨-, k, hfollows⟩ := follows_run bound hquiet hbegins
  have hbegun :
      Property.Of (j.GetsOn batch 0) (start log revision).watcher (start log revision).delivered
      (start log revision).scene :=
    of_start log revision
      { calm := ⟨(fun d hd => by cases hd), fun cause hcause => by cases hcause⟩
        follows := ⟨0, hstart, (fun hended => by cases hended), Or.inr (Nat.zero_le _)⟩ }
  have hcalmed := getsOn_run bound hcalm hbegun
  -- the first poll hands out what is held back
  have hflush : ∀ p ∈ [Pulling.poll []], p.IsCalm := by
    intro p hp
    obtain rfl := List.mem_singleton.1 hp
    exact ⟨(fun d hd => by cases hd), fun cause hcause => by cases hcause⟩
  have hflushed := getsOn_run bound hflush hcalmed
  have hnone := (getsOn_poll bound hcalmed).1
  -- every second poll takes the watcher at least a step on
  obtain ⟨⟨-, -, n, habreast, -, hfar⟩, hnone'⟩ := getsOn_polls bound hflushed hnone (2 * k)
  refine ⟨2 * k + 1, ?_⟩
  have hrun : (start log revision).run batch bound (calm ++ List.replicate (2 * k + 1) (.poll [])) =
      (((start log revision).run batch bound calm).run batch bound [.poll []]).run batch bound
        (List.replicate (2 * k) (.poll [])) := run_append batch bound _ calm _
  have hshown := habreast.shown
  rw [hnone', List.append_nil, ← hrun] at hshown
  have hfirst : ((Journey.step batch)^[k] j).shown <+: ((Journey.step batch)^[n] j).shown := by
    rcases hfar with hstuck | hfar
    · exact Journey.IsStuck.shown_prefix hstuck k
    · refine Journey.shown_prefix_iterate j batch ?_
      split at hfar <;> omega
  rw [hfollows.shown, hshown] at hfirst
  exact (List.prefix_append _ _).trans hfirst

/-- **Failures cost a watcher no entry, and it ends once.** Waiting tells of no error that is not
final, at most one that is final is told, and after it nothing is told and the watcher stays as it
is. What it hands out is the beginning of what it hands out where nothing fails, as long as others
leave the log alone. -/
theorem failures_cost_nothing (log : Log) (revision : Int) (batch : Nat) (bound : Log → Nat)
    {failing calm : List Pulling} (hquiet : ∀ p ∈ failing, p.IsQuiet)
    (hcalm : ∀ p ∈ calm, p.IsCalm) :
    ((start log revision).run batch bound failing).EndsOnce ∧
    ((start log revision).run batch bound failing).upshots.countP Upshot.isFinal ≤ 1 ∧
    (∀ before after, failing = before ++ after →
      ((start log revision).run batch bound before).upshots.any Upshot.isFinal = true →
      ((start log revision).run batch bound failing).watcher =
        ((start log revision).run batch bound before).watcher) ∧
    ∃ n, ((start log revision).run batch bound failing).delivered <+:
      ((start log revision).run batch bound (calm ++ List.replicate n (.poll []))).delivered := by
  have hends : ∀ pulls, ((start log revision).run batch bound pulls).EndsOnce := fun pulls =>
    (EndsOnce.start log revision).run pulls
  refine ⟨hends failing, (hends failing).countP_le_one, ?_,
    exists_delivered_prefix log revision batch bound hquiet hcalm⟩
  rintro before after rfl hfinal
  rw [run_append]
  exact watcher_run_of_hasEnded ((hends before).hasEnded hfinal) batch bound after

/-- A read fails, then the first row is handed out. The claim of the missing id fails, so that the
id has to be suspected again; the wait for the row behind it retries another read. Then the watcher
is cancelled, and two more pulls come to nothing. -/
theorem exists_failures_cost_nothing :
    ∃ (log : Log) (failing after : List Pulling) (t final : Trial),
    (∀ p ∈ failing ++ after, p.IsQuiet) ∧ t = (start log 0).run 2 (fun _ => 4) failing ∧
    final = (start log 0).run 2 (fun _ => 4) (failing ++ after) ∧
    (final.delivered.map Entry.revision, final.watcher.cursor, t.upshots.length,
      final.upshots.length) = ([1, 3], 3, 5, 7) ∧
    .polled (.error .cancelled) ∈ t.upshots ∧ final.watcher = t.watcher ∧ final.EndsOnce ∧
    final.upshots.countP Upshot.isFinal ≤ 1 ∧
    ∃ n,
    final.delivered <+:
      ((start log 0).run 2 (fun _ => 4) ([] ++ List.replicate n (.poll []))).delivered := by
  let log := (World.act { log := { indexing := .linkFirst } }
    [.commit ⟨1, "a", true, false, 1, 0, 0, [1], []⟩,
      .commit ⟨3, "c", true, false, 3, 0, 0, [3], []⟩]).log
  let failing : List Pulling :=
    [.poll [{ failure := some .poolExhausted }], .next 0 [] [],
      .poll [{}, { failure := some .poolExhausted }],
      .next 2 [{ failure := some .poolExhausted }] [], .poll [{ failure := some .cancelled }]]
  let after : List Pulling := [.next 0 [] [], .poll []]
  have hquiet : ∀ p ∈ failing ++ after, p.IsQuiet := by
    have hall : ∀ d ∈ (failing ++ after).flatMap Pulling.disturbances, d.change = id := by
      simp [failing, after, Pulling.disturbances]
    exact fun p hp d hd => hall d (List.mem_flatMap.2 ⟨p, hp, hd⟩)
  have hcalm : ∀ p ∈ ([] : List Pulling), p.IsCalm := fun p hp => by cases hp
  obtain ⟨hends, honce, hstays, hfirst⟩ :=
    failures_cost_nothing log 0 2 (fun _ => 4) hquiet hcalm
  have hsame := hstays failing after rfl (by decide +kernel)
  exact ⟨log, failing, after, _, _, hquiet, rfl, rfl, by decide +kernel, by decide +kernel, hsame,
    hends, honce, hfirst⟩

end Trial

end RevisionLog
