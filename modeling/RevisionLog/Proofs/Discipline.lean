import Mathlib.Algebra.Order.BigOperators.Group.Finset
import RevisionLog.Proofs.Traffic

/-!
# The discipline of transactions

Calls wait for a connection and for the lock, and never for a connection while they have the lock.
So nobody waits in vain, and whatever has happened, all calls can still come to their end. What is
taken is given back on every way out.

* `Traffic.Orderly.exists_move` — some call can go on as long as not all have ended.
* `Traffic.Orderly.exists_all_ended` — all calls can end, and then everything is back.
* `Traffic.Orderly.exists_moves_of_admission` — the moves of an admission are moves of this traffic.
* `Traffic.disciplined_of_reachable` — what holds at every moment.
-/

namespace RevisionLog

open Transaction

namespace Traffic

variable {ι : Type} [DecidableEq ι] {t : Traffic ι} {s s' : State ι} {i j : ι} {c : Nat}

/-! ## Nobody waits in vain -/

/-- A call that asks its context gets an answer. -/
theorem exists_move_of_asks {onward : Place} {refuse : Ending → Place}
    (hasks : t.asks? i (s.place i) = some (onward, refuse)) : ∃ s', t.Move i s s' := by
  rcases hcause : (t.context i).causeAt s.moment with _ | cause
  · exact ⟨_, .walks (.goesOn hasks hcause)⟩
  · exact ⟨_, .walks (.refused hasks hcause)⟩

/-- A call that waits for nobody can go on. -/
theorem exists_move_of_free (t : Traffic ι) (hended : (s.place i).isEnded = false)
    (hagain : (s.place i).again? = none) : ∃ s', t.Move i s s' := by
  cases hplace : s.place i
  case starting => exact exists_move_of_asks (by rw [hplace]; rfl)
  case connecting asked =>
    cases asked
    · exact exists_move_of_asks (by rw [hplace]; rfl)
    · rw [hplace] at hagain
      cases hagain
  case locking c asked =>
    cases asked
    · rcases hturns : t.takesTurns i with _ | _
      · exact ⟨_, .walks (.passes hplace hturns)⟩
      · exact exists_move_of_asks (by rw [hplace, asks?, if_pos hturns])
    · rw [hplace] at hagain
      cases hagain
  case arming => exact ⟨_, .arms hplace⟩
  case opening => exact exists_move_of_asks (by rw [hplace]; rfl)
  case working => exact ⟨_, .walks (.works hplace)⟩
  case finishing => exact exists_move_of_asks (by rw [hplace]; rfl)
  case committing => exact ⟨_, .walks (.commits hplace)⟩
  case disarming => exact ⟨_, .disarms hplace⟩
  case unlocking => exact ⟨_, .unlocks hplace⟩
  case returning => exact ⟨_, .returns hplace⟩
  case ended =>
    rw [hplace] at hended
    cases hended

/-- A call that waits for the lock can go on, or the one that has it can. -/
theorem Orderly.exists_move_of_locking (h : t.Orderly s) (hplace : s.place i = .locking c true) :
    ∃ j s', t.Move j s s' := by
  have hturns := h.gated i true (by rw [hplace]; rfl)
  have henabled : s.lock.isEnabled = true := by
    rw [h.guarded.enabled]
    exact (Bool.and_eq_true_iff.1 hturns).2
  rcases hlock : s.lock with _ | _ | _
  · rw [hlock] at henabled
    cases henabled
  · have hfree : s.lock.tryAcquire none = (.granted, .held) := by rw [hlock]; rfl
    exact ⟨i, _, .acquires hplace hfree⟩
  · obtain ⟨j, hj⟩ := h.guarded.held.1 hlock
    obtain ⟨c, hc⟩ := Place.exists_connection hj
    exact ⟨j, exists_move_of_free t (Place.isEnded_of_connection hc) (Place.again?_of_isLocked hj)⟩

/-- **As long as a call has not ended, some call can go on.** One that waits for a connection waits
for calls that have one, and those wait for the lock at most; and whoever has the lock waits for
nobody. -/
theorem Orderly.exists_move (h : t.Orderly s) (hpos : 0 < t.connections)
    (hended : (s.place i).isEnded = false) : ∃ j s', t.Move j s s' := by
  rcases hagain : (s.place i).again? with _ | p
  · exact ⟨i, exists_move_of_free t hended hagain⟩
  rcases Place.of_again? hagain with hplace | ⟨c, hplace⟩
  · rcases h.pooled.kept 0 hpos with hidle | ⟨j, hj⟩
    · exact ⟨i, _, .takes hplace hidle⟩
    · rcases hwaits : (s.place j).again? with _ | p'
      · exact ⟨j, exists_move_of_free t (Place.isEnded_of_connection hj) hwaits⟩
      · rcases Place.of_again? hwaits with hholder | ⟨c, hholder⟩
        · rw [hholder] at hj
          cases hj
        · exact h.exists_move_of_locking hholder
  · exact h.exists_move_of_locking hplace

/-! ## All calls can end -/

omit [DecidableEq ι] in
theorem left_lt_of_asks? {p onward : Place} {refuse : Ending → Place}
    (h : t.asks? i p = some (onward, refuse)) :
    onward.left < p.left ∧ ∀ ending, (refuse ending).left < p.left := by
  cases p with
  | starting =>
    cases h
    simp [Place.left]
  | connecting asked =>
    cases asked <;> cases h
    simp [Place.left]
  | locking c asked =>
    cases asked
    · rw [asks?] at h
      split at h <;> cases h
      simp [Place.left]
    · cases h
  | opening c locked =>
    cases h
    simp [Place.left]
  | finishing c locked =>
    cases h
    simp [Place.left]
  | _ => cases h

theorem left_lt_of_breaks {p : Place} {locked : Bool}
    (h : p = .working c locked ∨ p = .committing c locked) (ending : Ending) :
    (Place.disarming c locked ending).left < p.left := by
  rcases h with rfl | rfl <;> simp [Place.left]

omit [DecidableEq ι] in
theorem Walk.left_lt {p : Place} (h : t.Walk s i p) : p.left < (s.place i).left := by
  cases h with
  | goesOn hasks => exact (left_lt_of_asks? hasks).1
  | refused hasks => exact (left_lt_of_asks? hasks).2 _
  | passes hplace => simp [hplace, Place.left]
  | works hplace => simp [hplace, Place.left]
  | fails hplace => exact left_lt_of_breaks hplace _
  | panics hplace => exact left_lt_of_breaks hplace _
  | commits hplace => exact left_lt_of_breaks (Or.inr hplace) _

/-- A call that goes on has fewer steps left. -/
theorem Move.left_lt (h : t.Move i s s') : (s'.place i).left < (s.place i).left := by
  cases h with
  | walks hwalk =>
    rw [place_put_self]
    exact hwalk.left_lt
  | takes hplace => simp [hplace, Place.left]
  | acquires hplace => simp [hplace, Place.left]
  | arms hplace => simp [hplace, Place.left]
  | disarms hplace => simp [hplace, Place.left]
  | unlocks hplace => simp [hplace, Place.left]
  | returns hplace => simp [hplace, Place.left]

/-- It moves nobody else. -/
theorem Move.place_eq (h : t.Move i s s') (hne : j ≠ i) : s'.place j = s.place j := by
  cases h <;> exact place_put_of_ne s _ hne

/-- **All calls can end**, whatever has happened. -/
theorem Orderly.exists_all_ended [Fintype ι] (h : t.Orderly s) (hpos : 0 < t.connections) :
    ∃ s', Relation.ReflTransGen (fun s s' => ∃ i, t.Move i s s') s s' ∧ t.Orderly s' ∧
      ∀ i, (s'.place i).isEnded = true := by
  induction hsum : ∑ i, (s.place i).left using Nat.strong_induction_on generalizing s with
  | _ n ih =>
    by_cases hall : ∀ i, (s.place i).isEnded = true
    · exact ⟨s, .refl, h, hall⟩
    · obtain ⟨i, hi⟩ := not_forall.1 hall
      obtain ⟨j, s₁, hmove⟩ := h.exists_move hpos (eq_false_of_ne_true hi)
      have hless : ∑ i, (s₁.place i).left < ∑ i, (s.place i).left := by
        refine Finset.sum_lt_sum (fun k _ => ?_) ⟨j, Finset.mem_univ j, hmove.left_lt⟩
        by_cases hk : k = j
        · rw [hk]
          exact Nat.le_of_lt hmove.left_lt
        · rw [hmove.place_eq hk]
      obtain ⟨s', hmoves, hafter, hended⟩ := ih _ (hsum ▸ hless) (h.step (Or.inl ⟨j, hmove⟩)) rfl
      exact ⟨s', .head ⟨j, hmove⟩ hmoves, hafter, hended⟩

omit [DecidableEq ι] in
/-- Where all calls have ended everything is back. -/
theorem Orderly.all_back (h : t.Orderly s) (hall : ∀ i, (s.place i).isEnded = true) :
    s.idle = Finset.range t.connections ∧ s.lock = .make t.locks ∧ ∀ i, s.handle i = none := by
  have hnone := fun i => Place.connection_of_isEnded (hall i)
  refine ⟨Finset.ext fun c => ?_, ?_, fun i => ?_⟩
  · rw [Finset.mem_range]
    refine ⟨h.pooled.lt c, fun hc => (h.pooled.kept c hc).resolve_right ?_⟩
    rintro ⟨i, hi⟩
    rw [hnone i] at hi
    cases hi
  · have hfree : s.lock ≠ .held := by
      intro hheld
      obtain ⟨i, hi⟩ := h.guarded.held.1 hheld
      obtain ⟨c, hc⟩ := Place.exists_connection hi
      rw [hnone i] at hc
      cases hc
    rw [← h.guarded.enabled]
    rcases hlock : s.lock with _ | _ | _
    · rfl
    · rfl
    · exact absurd hlock hfree
  · rcases hhandle : (s.place i).handle? with _ | c
    · exact (h.armed i).trans hhandle
    · have hc := Place.connection_of_handle hhandle
      rw [hnone i] at hc
      cases hc

/-! ## Admissions -/

/-- Why a call was refused, if it was. -/
def Ending.refusal? : Ending → Option Cause
  | refused cause => some cause
  | _ => none

/-- The stage of an admission that a place belongs to. -/
def Place.stage : Place → Admission.Stage
  | starting => .starting
  | connecting _ => .connecting
  | locking _ _ => .locking
  | arming _ locked => .opening locked
  | opening _ locked => .opening locked
  | working _ locked => .working locked
  | finishing _ locked => .working locked
  | committing _ locked => .working locked
  | disarming _ _ ending => .ended ending.refusal?
  | unlocking _ _ ending => .ended ending.refusal?
  | returning _ ending => .ended ending.refusal?
  | ended ending => .ended ending.refusal?

/-- What the calls share. -/
def State.resources (s : State ι) : Resources := { connections := s.idle.card, lock := s.lock }

/-- Many steps of one call. -/
def Moves (t : Traffic ι) (i : ι) : State ι → State ι → Prop := Relation.ReflTransGen (t.Move i)

theorem Move.moves (h : t.Move i s s') : t.Moves i s s' := .single h

/-- On its way out a call gives back what it has. -/
theorem exists_moves_out (t : Traffic ι) {locked : Bool} {ending : Ending}
    (hplace : s.place i = .disarming c locked ending) (hout : c ∉ s.idle) :
    ∃ s', t.Moves i s s' ∧ s'.place i = .ended ending ∧
      s'.resources = ⟨s.idle.card + 1, if locked then s.lock.release else s.lock⟩ := by
  have hdisarms : t.Move i s _ := .disarms hplace
  have hunlocks : t.Move i ((s.put i (.unlocking c locked ending)).publish i none) _ :=
    .unlocks (place_put_self s i _)
  refine ⟨_, .head hdisarms (.head hunlocks (.single (.returns (place_put_self _ i _)))),
    place_put_self _ i _, ?_⟩
  rw [State.resources, ← Finset.card_insert_of_notMem hout]
  rfl

section Admission

variable {needs : Bool} {resources : Resources} {stage : Admission.Stage}

/-- Where all is had, the work begins, or everything is given back. -/
theorem exists_moves_of_opening {locked : Bool} (hplace : s.place i = .opening c locked)
    (hout : c ∉ s.idle)
    (hmove : Admission.move needs ((t.context i).causeAt s.moment) s.resources (.opening locked) =
      some (resources, stage)) :
    ∃ s', t.Moves i s s' ∧ s'.resources = resources ∧ (s'.place i).stage = stage := by
  have hasks : t.asks? i (s.place i) = some (.working c locked, .disarming c locked) := by
    rw [hplace]; rfl
  rcases hcause : (t.context i).causeAt s.moment with _ | cause <;> rw [hcause] at hmove <;>
    cases hmove
  · exact ⟨_, (Move.walks (.goesOn hasks hcause)).moves, rfl, congrArg _ (place_put_self s i _)⟩
  · have hrefused : t.Move i s _ := .walks (.refused hasks hcause)
    obtain ⟨s', hmoves, hended, hback⟩ := exists_moves_out t (place_put_self s i _) hout
    exact ⟨s', .head hrefused hmoves, hback, congrArg _ hended⟩

omit [DecidableEq ι] in
/-- Who takes no turns passes by the lock. -/
theorem Orderly.move_of_passing (h : t.Orderly s) (hturns : t.takesTurns i = false)
    (cause : Option Cause) :
    Admission.move ((t.mode i).needsLock t.serializeWrites) cause s.resources .locking =
      some (s.resources, .opening false) := by
  rcases hneeds : (t.mode i).needsLock t.serializeWrites with _ | _
  · rfl
  · rw [takesTurns, hneeds, Bool.true_and, ← h.guarded.enabled] at hturns
    rcases hlock : s.lock with _ | _ | _ <;> rw [hlock] at hturns
    · simp only [Admission.move, State.resources, hlock, WriteLock.tryAcquire]
      rfl
    · cases hturns
    · cases hturns

omit [DecidableEq ι] in
/-- Who takes turns asks at the lock. -/
theorem Orderly.move_of_turns (h : t.Orderly s) (hturns : t.takesTurns i = true)
    {cause : Option Cause}
    (hmove : Admission.move ((t.mode i).needsLock t.serializeWrites) cause s.resources .locking =
      some (resources, stage)) :
    (∃ c, cause = some c ∧ resources = ⟨s.idle.card + 1, s.lock⟩ ∧ stage = .ended (some c)) ∨
      cause = none ∧ s.lock = .free ∧ resources = ⟨s.idle.card, .held⟩ ∧ stage = .opening true := by
  obtain ⟨hneeds, hlocks⟩ := Bool.and_eq_true_iff.1 hturns
  rw [hneeds] at hmove
  rw [← h.guarded.enabled] at hlocks
  rcases hlock : s.lock with _ | _ | _ <;> rw [hlock] at hlocks
  · cases hlocks
  all_goals
    rcases cause with _ | cause <;>
      simp only [Admission.move, State.resources, hlock, WriteLock.tryAcquire] at hmove <;>
        cases hmove
  · exact Or.inr ⟨rfl, rfl, rfl, rfl⟩
  · exact Or.inl ⟨cause, rfl, rfl, rfl⟩
  · exact Or.inl ⟨cause, rfl, rfl, rfl⟩

/-- At the lock it is taken, or passed by, or the connection is given back. -/
theorem Orderly.exists_moves_of_locking (h : t.Orderly s) (hplace : s.place i = .locking c false)
    (hmove : Admission.move ((t.mode i).needsLock t.serializeWrites)
      ((t.context i).causeAt s.moment) s.resources .locking = some (resources, stage)) :
    ∃ s', t.Moves i s s' ∧ s'.resources = resources ∧ (s'.place i).stage = stage := by
  rcases hturns : t.takesTurns i with _ | _
  · rw [h.move_of_passing hturns] at hmove
    cases hmove
    exact ⟨_, (Move.walks (.passes hplace hturns)).moves, rfl, congrArg _ (place_put_self s i _)⟩
  · have hasks : t.asks? i (s.place i) = some (.locking c true, .returning c) := by
      rw [hplace, asks?, if_pos hturns]
    rcases h.move_of_turns hturns hmove with ⟨cause, hcause, rfl, rfl⟩ | ⟨hpending, hlock, rfl, rfl⟩
    · have hrefused : t.Move i s _ := .walks (.refused hasks hcause)
      refine ⟨_, .head hrefused (.single (.returns (place_put_self s i _))), ?_,
        congrArg _ (place_put_self _ i _)⟩
      rw [← Finset.card_insert_of_notMem (h.pooled.out i c (by rw [hplace]; rfl)).2]
      rfl
    · have hasked : t.Move i s _ := .walks (.goesOn hasks hpending)
      have hfree : s.lock.tryAcquire none = (.granted, .held) := by rw [hlock]; rfl
      exact ⟨_, .head hasked (.single (.acquires (place_put_self s i _) hfree)), rfl,
        congrArg _ (place_put_self _ i _)⟩

/-- **Every move of an admission is made of steps of its call**, with what is asked and what is
free now. -/
theorem Orderly.exists_moves_of_admission (h : t.Orderly s) (hagain : (s.place i).again? = none)
    (hmove : Admission.move ((t.mode i).needsLock t.serializeWrites)
      ((t.context i).causeAt s.moment) s.resources (s.place i).stage = some (resources, stage)) :
    ∃ s', t.Moves i s s' ∧ s'.resources = resources ∧ (s'.place i).stage = stage := by
  cases hplace : s.place i <;> rw [hplace] at hmove hagain
  case starting =>
    have hasks : t.asks? i (s.place i) = some (.connecting false, .ended) := by rw [hplace]; rfl
    rcases hcause : (t.context i).causeAt s.moment with _ | cause <;> rw [hcause] at hmove <;>
      cases hmove
    · exact ⟨_, (Move.walks (.goesOn hasks hcause)).moves, rfl, congrArg _ (place_put_self s i _)⟩
    · exact ⟨_, (Move.walks (.refused hasks hcause)).moves, rfl, congrArg _ (place_put_self s i _)⟩
  case connecting asked =>
    cases asked
    · have hasks : t.asks? i (s.place i) = some (.connecting true, .ended) := by rw [hplace]; rfl
      rcases hcause : (t.context i).causeAt s.moment with _ | cause <;> rw [hcause] at hmove
      · dsimp only [Place.stage, Admission.move] at hmove
        split at hmove
        · cases hmove
        · next hsome =>
          cases hmove
          obtain ⟨c, hc⟩ := Finset.card_pos.1 (Nat.pos_of_ne_zero hsome)
          have hasked : t.Move i s _ := .walks (.goesOn hasks hcause)
          refine ⟨_, .head hasked (.single (.takes (place_put_self s i _) hc)), ?_,
            congrArg _ (place_put_self _ i _)⟩
          rw [State.resources]
          exact congrArg (Resources.mk · s.lock) (Finset.card_erase_of_mem hc)
      · cases hmove
        exact ⟨_, (Move.walks (.refused hasks hcause)).moves, rfl,
          congrArg _ (place_put_self s i _)⟩
    · cases hagain
  case locking c asked =>
    cases asked
    · exact h.exists_moves_of_locking hplace hmove
    · cases hagain
  case arming c locked =>
    have harms : t.Move i s _ := .arms hplace
    have hopening : ((s.put i (.opening c locked)).publish i (some c)).place i =
        .opening c locked :=
      place_put_self s i _
    obtain ⟨s', hmoves, hafter⟩ :=
      exists_moves_of_opening hopening (h.pooled.out i c (by rw [hplace]; rfl)).2 hmove
    exact ⟨s', .head harms hmoves, hafter⟩
  case opening c locked =>
    exact exists_moves_of_opening hplace (h.pooled.out i c (by rw [hplace]; rfl)).2 hmove
  -- the work is under way, or over
  all_goals cases hmove

/-- **So is its end**, where its work fails. -/
theorem Orderly.exists_moves_of_finish (h : t.Orderly s) {locked : Bool}
    (hplace : s.place i = .working c locked) (e : Error) :
    ∃ s', t.Moves i s s' ∧
      (s'.resources, (s'.place i).stage) = Admission.finish s.resources (s.place i).stage none := by
  have hfails : t.Move i s _ := .walks (.fails (Or.inl hplace) e)
  obtain ⟨s', hmoves, hended, hback⟩ := exists_moves_out t (place_put_self s i _)
    (h.pooled.out i c (by rw [hplace]; rfl)).2
  refine ⟨s', .head hfails hmoves, ?_⟩
  rw [hback, hended, hplace]
  rfl

end Admission

/-! ## The discipline -/

/-- What holds at every moment, whatever the calls and their contexts have done. -/
structure Disciplined (t : Traffic ι) (s : State ι) : Prop where
  /-- no more connections are out than there are -/
  connections : ∀ calls : Finset ι, (∀ i ∈ calls, (s.place i).connection?.isSome) →
    calls.card ≤ t.connections
  /-- no connection is with two calls -/
  apart : ∀ i j c, (s.place i).connection? = some c → (s.place j).connection? = some c → i = j
  /-- of those that take turns one is beyond the lock, at most -/
  turns : ∀ i j, t.takesTurns i = true → t.takesTurns j = true → (s.place i).beyond?.isSome →
    (s.place j).beyond?.isSome → i = j
  /-- readers never have the lock -/
  readers : ∀ i, t.mode i = .read → (s.place i).isLocked = false
  /-- whoever has the lock takes turns, and has a connection -/
  holders : ∀ i, (s.place i).isLocked = true →
    t.takesTurns i = true ∧ ∃ c, (s.place i).connection? = some c
  /-- as long as a call has not ended, some call can go on by itself -/
  progress : ∀ i, (s.place i).isEnded = false → ∃ j s', t.Move j s s'
  /-- a handle reaches the connection that its own call has, and that no other has -/
  aims : ∀ i c, s.handle i = some c →
    (s.place i).connection? = some c ∧ ∀ j, (s.place j).connection? = some c → j = i
  /-- an interruption for a call strikes no other -/
  strikes : ∀ i j s', t.Strike i j s s' → j = i
  /-- when a call ends, what it had is free -/
  returned : ∀ i s', t.Step s s' → (s'.place i).isEnded = true →
    ∀ c, (s.place i).connection? = some c → c ∈ s'.idle
  /-- a call that has ended has nothing any more -/
  ended : ∀ i, (s.place i).isEnded = true →
    (s.place i).connection? = none ∧ (s.place i).isLocked = false ∧ s.handle i = none
  /-- every connection is free, or with a call that has not ended -/
  accounted : ∀ c < t.connections,
    c ∈ s.idle ∨ ∃ i, (s.place i).isEnded = false ∧ (s.place i).connection? = some c

omit [DecidableEq ι] in
/-- Beyond the lock those have it who take turns. -/
theorem Gated.takesTurns (h : t.Gated s) (hlocked : (s.place i).isLocked = true) :
    t.takesTurns i = true :=
  h i true (Place.gate_of_beyond (Place.beyond_of_isLocked hlocked))

omit [DecidableEq ι] in
theorem Gated.isLocked (h : t.Gated s) (hturns : t.takesTurns i = true)
    (hbeyond : (s.place i).beyond?.isSome) : (s.place i).isLocked = true := by
  obtain ⟨b, hb⟩ := Option.isSome_iff_exists.1 hbeyond
  have hsame := h i b (Place.gate_of_beyond hb)
  rw [Place.isLocked, hb, ← hsame, hturns]
  rfl

/-- A connection is free again when its call ends, however it ends. -/
theorem Step.mem_idle (h : t.Step s s') (hc : (s.place i).connection? = some c)
    (hended : (s'.place i).isEnded = true) : c ∈ s'.idle := by
  have hnone := Place.connection_of_isEnded hended
  -- all steps but one leave the call its connection
  have hkeeps : (s'.place i).connection? ≠ (s.place i).connection? := by
    rw [hnone, hc]
    exact (Option.some_ne_none c).symm
  cases h.effect with
  | keeps hsame => exact absurd (hsame i).connection hkeeps
  | @takes j d hplace =>
    by_cases hij : i = j
    · subst hij
      rw [hplace] at hc
      cases hc
    · exact absurd (congrArg _ (place_put_of_ne s _ hij)) hkeeps
  | acquires hplace => exact absurd (view_put (by rw [hplace]; rfl) i) hkeeps
  | arms hplace => exact absurd (view_put (by rw [hplace]; rfl) i) hkeeps
  | disarms hplace => exact absurd (view_put (by rw [hplace]; rfl) i) hkeeps
  | unlocks hplace => exact absurd (view_put (by rw [hplace]; rfl) i) hkeeps
  | @returns j d ending hplace =>
    by_cases hij : i = j
    · subst hij
      rw [hplace] at hc
      cases hc
      exact Finset.mem_insert_self c s.idle
    · exact absurd (congrArg _ (place_put_of_ne s _ hij)) hkeeps

omit [DecidableEq ι] in
/-- A handle reaches what its own call has. -/
theorem Orderly.connection_of_handle (h : t.Orderly s) (hhandle : s.handle i = some c) :
    (s.place i).connection? = some c :=
  Place.connection_of_handle ((h.armed i).symm.trans hhandle)

/-- **The discipline of transactions.** Connections, the lock and the handles are with one call
each, nobody waits in vain, nobody is interrupted for another, and everything comes back. -/
theorem disciplined_of_reachable (hpos : 0 < t.connections) (h : t.Reachable s) :
    t.Disciplined s := by
  have horderly := h.orderly
  refine ⟨horderly.pooled.card_le, horderly.pooled.single, ?turns, ?readers, ?holders,
    fun _ => horderly.exists_move hpos, ?aims, ?strikes, fun _ _ hstep hended _ hc =>
      hstep.mem_idle hc hended, ?ended,
    ?accounted⟩
  case turns =>
    intro i j hi hj hbeyond hbeyond'
    exact horderly.guarded.single i j (horderly.gated.isLocked hi hbeyond)
      (horderly.gated.isLocked hj hbeyond')
  case readers =>
    intro i hread
    by_contra hlocked
    have hturns := horderly.gated.takesTurns (eq_true_of_ne_false hlocked)
    rw [takesTurns, hread] at hturns
    cases hturns
  case holders => exact fun i hlocked =>
    ⟨horderly.gated.takesTurns hlocked, Place.exists_connection hlocked⟩
  case aims =>
    intro i c hhandle
    have hc := horderly.connection_of_handle hhandle
    exact ⟨hc, fun j hj => horderly.pooled.single j i c hj hc⟩
  case strikes =>
    intro i j s' hstrike
    cases hstrike with
    | @strikes c _ _ hhandle hplace =>
      have hc : (s.place j).connection? = some c := by
        rcases hplace with hplace | hplace <;> rw [hplace] <;> rfl
      exact horderly.pooled.single j i c hc (horderly.connection_of_handle hhandle)
  case ended =>
    intro i hended
    exact ⟨Place.connection_of_isEnded hended, Place.isLocked_of_isEnded hended,
      (horderly.armed i).trans (Place.handle_of_isEnded hended)⟩
  case accounted =>
    intro c hc
    rcases horderly.pooled.kept c hc with hidle | ⟨i, hi⟩
    · exact Or.inl hidle
    · exact Or.inr ⟨i, Place.isEnded_of_connection hi, hi⟩

/-- A writer and a migration. -/
def crossing : Traffic (Fin 2) where
  connections := 2
  locks := true
  serializeWrites := true
  mode i := if i = 0 then .write else .schema
  context i := { lineage := [i.val] }

/-- The writer is interrupted, and the migration still waits for the lock. -/
theorem disciplined_crossing : ∃ s, 0 < crossing.connections ∧ crossing.Reachable s ∧
    s.place 0 = .disarming 0 true (.failed (.query .interrupted)) ∧ s.place 1 = .locking 1 true ∧
      crossing.Disciplined s := by
  have h : crossing.Reachable (crossing.start {}) := ⟨{}, .refl⟩
  -- the writer comes to its work
  have h := h.asks (i := 0) rfl rfl
  have h := h.asks (i := 0) rfl rfl
  have h := h.move (i := 0) (.takes (c := 0) rfl (by decide))
  have h := h.asks (i := 0) rfl rfl
  have h := h.move (i := 0) (.acquires rfl rfl)
  have h := h.move (i := 0) (.arms rfl)
  have h := h.asks (i := 0) rfl rfl
  -- the migration comes to the lock
  have h := h.asks (i := 1) rfl rfl
  have h := h.asks (i := 1) rfl rfl
  have h := h.move (i := 1) (.takes (c := 1) rfl (by decide))
  have h := h.asks (i := 1) rfl rfl
  -- the context of the writer is cancelled
  have h := h.event (.passes (m := { tokens := { made := 2, cancelled := [0] } }) (by decide))
  have h := h.event (.strikes (.strikes (i := 0) (j := 0) (by decide) rfl (Or.inl rfl)))
  exact ⟨_, by decide, h, rfl, rfl, disciplined_of_reachable (by decide) h⟩

end Traffic

end RevisionLog
