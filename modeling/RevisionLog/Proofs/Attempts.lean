import RevisionLog.Proofs.Atomicity
import RevisionLog.Session.Opening

/-!
# How often is attempted what fails

The tables of a store are attempted to be created until that succeeds or is cancelled, or as often
as the policy allows. Between two attempts there is a wait, which the context of the caller can
stop. How many attempts there are depends on what comes of each of them, and on when the context is
finished. At the very end of a wait either can come first.

* `Retry.Pauses` — how a wait under a context may go; `Session.pauses_pauseUnder` — a session waits
  so.
* `Retry.Endeavour` — what attempts come to and how long they take, and how the waits between them
  go.
* `Retry.Endeavour.GoesOn` — an attempt decides nothing, and the wait after it takes its whole time.
* `Retry.Endeavour.Outlasts` — a context is not finished in a wait.
* `Retry.Endeavour.run_eq_go` — what is still to be done after attempts that decided nothing.
* `Retry.Endeavour.run_exactly` — how many attempts there are, and what is answered.
-/

namespace RevisionLog

/-! ## Causes -/

namespace Context

variable {c : Context} {m : Moment} {cause : Cause}

/-- A context is finished for a cause. It can be for both. -/
def HasCause (c : Context) (m : Moment) : Cause → Prop
  | .cancelled => c.isCancelled m.tokens = true
  | .deadlineExceeded => ∃ time, c.deadline = some time ∧ time ≤ m.now

theorem causeAt_eq_none_iff :
    c.causeAt m = none ↔ c.isCancelled m.tokens = false ∧ ∀ time, c.deadline = some time →
      m.now < time := by
  rw [causeAt, cause?]
  split
  · next hcancelled => simp [hcancelled]
  · next hpending =>
    rw [Bool.not_eq_true] at hpending
    rcases hdeadline : c.deadline with _ | time
    · simp [hpending]
    · simp [hpending]

theorem hasCause_of_causeAt (h : c.causeAt m = some cause) : c.HasCause m cause := by
  rw [causeAt, cause?] at h
  split at h
  · next hcancelled =>
    cases h
    exact hcancelled
  · split at h
    · next time hdeadline =>
      split at h <;> cases h
      exact ⟨time, hdeadline, by assumption⟩
    · cases h

theorem HasCause.causeAt_ne_none (h : c.HasCause m cause) : c.causeAt m ≠ none := by
  intro hnone
  obtain ⟨hpending, hahead⟩ := causeAt_eq_none_iff.1 hnone
  cases cause with
  | cancelled => exact Bool.false_ne_true (hpending.symm.trans h)
  | deadlineExceeded =>
    obtain ⟨time, hdeadline, hpassed⟩ := h
    exact Nat.not_lt_of_le hpassed (hahead time hdeadline)

end Context

/-! ## Waits -/

namespace Retry

/-- How a wait under a context may go that begins at a time, where `tokens` tells what is cancelled
by when. It takes its whole span if the context is not finished before its end, and it is stopped as
soon as the context is finished. -/
inductive Pauses (context : Context) (tokens : Nat → Tokens) (start span : Nat) :
    Except Error Unit → Nat → Prop
  | whole (hpending : ∀ t, start ≤ t → t < start + span → context.causeAt ⟨tokens t, t⟩ = none) :
    Pauses context tokens start span (.ok ()) (start + span)
  | stopped {cause : Cause} {stop : Nat} (hstart : start ≤ stop) (hend : stop ≤ start + span)
    (hpending : ∀ t, start ≤ t → t < stop → context.causeAt ⟨tokens t, t⟩ = none)
    (hcause : context.HasCause ⟨tokens stop, stop⟩ cause) :
    Pauses context tokens start span (.error cause.toError) stop

/-- A wait that is only stopped before its end. -/
def prompt (context : Context) (tokens : Nat → Tokens) (start span : Nat) :
    Except Error Unit × Nat :=
  match (List.range' start span).find? fun t => (context.causeAt ⟨tokens t, t⟩).isSome with
  | some stop =>
    match context.causeAt ⟨tokens stop, stop⟩ with
    | some cause => (.error cause.toError, stop)
    | none => (.ok (), start + span)
  | none => (.ok (), start + span)

/-- Under every context there is a way for a wait to go. -/
theorem pauses_prompt (context : Context) (tokens : Nat → Tokens) (start span : Nat) :
    Pauses context tokens start span (prompt context tokens start span).1
      (prompt context tokens start span).2 := by
  unfold prompt
  split
  · next stop hfirst =>
    rw [List.find?_range'_eq_some] at hfirst
    obtain ⟨hfinished, hmem, hbefore⟩ := hfirst
    obtain ⟨cause, hcause⟩ := Option.isSome_iff_exists.1 hfinished
    rw [List.mem_range'_1] at hmem
    rw [hcause]
    exact .stopped hmem.1 (Nat.le_of_lt hmem.2)
      (fun t hstart hlt => by simpa using hbefore t hstart hlt) (Context.hasCause_of_causeAt hcause)
  · next hnone =>
    refine .whole fun t hstart hend => ?_
    have hpending := List.find?_eq_none.1 hnone t (List.mem_range'_1.2 ⟨hstart, hend⟩)
    simpa using hpending

end Retry

namespace Session

variable {s : Session}

theorem bind_apply {α β : Type} (x : Run α) (f : α → Run β) (s : Session) :
    (x >>= f) s = match (x s : α × Session) with | (a, s) => f a s := rfl

theorem pure_apply {α : Type} (a : α) (s : Session) : (pure a : Run α) s = (a, s) := rfl

theorem get_apply (s : Session) : (get : Run Session) s = (s, s) := rfl

/-- A pause where nothing is held and nothing else runs. -/
theorem rest_eq (hfree : s.obstacle = none) (halone : s.compactor = none) (context : Context)
    (span : Nat) :
    rest context span none s =
      match context.cause? s.tokens s.now with
      | some cause => (.stopped cause, s)
      | none =>
        match context.deadline.filter (· ≤ s.now + span) with
        | some deadline => (.stopped .deadlineExceeded, { s with now := max s.now deadline })
        | none => (.over, { s with now := max s.now (s.now + span) }) := by
  cases s with
  | mk now tokens =>
    cases hfree
    cases halone
    simp only [rest, takeTurn, causeOf, bind_apply, get_apply, pure_apply]
    rcases context.cause? tokens now with _ | cause
    · rcases context.deadline.filter (· ≤ now + span) with _ | deadline <;> rfl
    · rfl

theorem pauseUnder_eq (context : Context) (span : Nat) (s : Session) :
    pauseUnder context span s =
      match rest context span none s with
      | (.stopped cause, s) => (.error cause.toError, s)
      | (_, s) => (.ok (), s) := by
  rw [pauseUnder, bind_apply]
  rcases rest context span none s with ⟨_ | cause | _, s'⟩ <;> rfl

/-- **A session waits so.** -/
theorem pauses_pauseUnder (hfree : s.obstacle = none) (halone : s.compactor = none)
    (context : Context) (span : Nat) :
    Retry.Pauses context (fun _ => s.tokens) s.now span (pauseUnder context span s).1
      (pauseUnder context span s).2.now := by
  rw [pauseUnder_eq, rest_eq hfree halone]
  rcases hcause : context.cause? s.tokens s.now with _ | cause <;> dsimp only
  · obtain ⟨hpending, hahead⟩ :=
      Context.causeAt_eq_none_iff.1 (show context.causeAt ⟨s.tokens, s.now⟩ = none from hcause)
    rcases hdeadline : context.deadline.filter (· ≤ s.now + span) with _ | deadline <;> dsimp only
    · rw [Nat.max_eq_right (Nat.le_add_right _ _)]
      refine .whole fun t hstart hend =>
        Context.causeAt_eq_none_iff.2 ⟨hpending, fun time htime => ?_⟩
      have hlate := Option.filter_eq_none_iff.1 hdeadline time htime
      have hlate : s.now + span < time := by simpa using hlate
      exact Nat.lt_trans hend hlate
    · obtain ⟨htime, hsoon⟩ := Option.filter_eq_some_iff.1 hdeadline
      have hlt : s.now < deadline := hahead deadline htime
      rw [Nat.max_eq_right (Nat.le_of_lt hlt)]
      refine .stopped (Nat.le_of_lt hlt) (of_decide_eq_true hsoon) ?_
        ⟨deadline, htime, Nat.le_refl _⟩
      intro t hstart hbefore
      refine Context.causeAt_eq_none_iff.2 ⟨hpending, fun time hsame => ?_⟩
      rw [htime] at hsame
      cases hsame
      exact hbefore
  · exact .stopped (Nat.le_refl _) (Nat.le_add_right _ _)
      (fun t hstart hbefore => absurd hbefore (Nat.not_lt_of_le hstart))
      (Context.hasCause_of_causeAt hcause)

end Session

/-! ## Attempts -/

namespace Retry

theorem attempts_pos (policy : RetrySettings) : 0 < attempts policy :=
  Nat.le_max_right policy.attempts 1

/-- Whether nothing is attempted any more after an attempt, whatever the policy is. -/
def decides : Except Error Unit → Bool
  | .ok _ => true
  | .error e => e.isCancellation

/-- What attempts come to and how long they take, each one told by how many were made before it, and
how the waits after them go, under a context of which `tokens` tells what is cancelled by when. -/
structure Endeavour where
  context : Context
  tokens : Nat → Tokens
  outcome : Nat → Except Error Unit
  duration : Nat → Nat
  /-- how a wait goes after so many attempts that begins at a time and has a span, and when
  it ends -/
  wait : (made start span : Nat) → Except Error Unit × Nat
  waits : ∀ made start span,
    Pauses context tokens start span (wait made start span).1 (wait made start span).2

/-- The time, how many attempts were made so far, and for how long it was waited. -/
structure Progress where
  now : Nat
  made : Nat := 0
  waited : Nat := 0
  deriving DecidableEq, Repr

namespace Endeavour

def attempt (e : Endeavour) : StateM Progress (Except Error Unit) := fun p =>
  (e.outcome p.made, { p with now := p.now + e.duration p.made, made := p.made + 1 })

def pause (e : Endeavour) (interval : Nat) : StateM Progress (Except Error Unit) := fun p =>
  match e.wait p.made p.now interval with
  | (answer, stop) => (answer, { p with now := stop, waited := p.waited + (stop - p.now) })

/-- What comes of the attempts that a policy allows, if they begin at a time. -/
def run (e : Endeavour) (policy : RetrySettings) (start : Nat) : Except Error Unit × Progress :=
  Retry.run policy e.attempt (e.pause policy.interval) { now := start }

/-- The context is not finished at a time. -/
def IsPending (e : Endeavour) (t : Nat) : Prop := e.context.causeAt ⟨e.tokens t, t⟩ = none

instance (e : Endeavour) (t : Nat) : Decidable (e.IsPending t) :=
  inferInstanceAs (Decidable (_ = none))

/-- The time at which an attempt begins that follows so many others, if every wait between them
takes its whole span. -/
def begins (e : Endeavour) (start interval : Nat) : Nat → Nat
  | 0 => start
  | n + 1 => e.begins start interval n + e.duration n + interval

/-- The time at which this attempt has been made. The wait after it lasts from then until the next
attempt begins. -/
def ends (e : Endeavour) (start interval n : Nat) : Nat := e.begins start interval n + e.duration n

variable {e : Endeavour} {policy : RetrySettings} {start interval allowed left n : Nat}
  {last err : Error} {answer : Except Error Unit} {stop : Nat}

theorem pause_of_wait {p : Progress} (h : e.wait p.made p.now interval = (answer, stop)) :
    e.pause interval p = (answer, { p with now := stop, waited := p.waited + (stop - p.now) }) := by
  rw [pause, h]

/-- What is done while there are attempts left. -/
theorem go_succ (e : Endeavour) (interval allowed left : Nat) (last : Error) (p : Progress) :
    go e.attempt (e.pause interval) allowed (left + 1) last p =
      match e.outcome p.made with
      | .ok _ => (.ok (), { p with now := p.now + e.duration p.made, made := p.made + 1 })
      | .error err =>
        if err.isCancellation then
            (.error err, { p with now := p.now + e.duration p.made, made := p.made + 1 })
        else if left = 0 then
          (.error (.setup allowed err),
            { p with now := p.now + e.duration p.made, made := p.made + 1 })
        else
          match e.wait (p.made + 1) (p.now + e.duration p.made) interval with
          | (.error cause, stop) =>
            (.error cause, ⟨stop, p.made + 1, p.waited + (stop - (p.now + e.duration p.made))⟩)
          | (.ok _, stop) =>
            go e.attempt (e.pause interval) allowed left err
              ⟨stop, p.made + 1, p.waited + (stop - (p.now + e.duration p.made))⟩ := by
  simp only [go, attempt, bind, StateT.bind]
  rcases e.outcome p.made with err | _
  · dsimp only
    split
    · rfl
    · split
      · rfl
      · rcases hwait : e.wait (p.made + 1) (p.now + e.duration p.made) interval with ⟨answer, stop⟩
        have hpause : e.pause interval ⟨p.now + e.duration p.made, p.made + 1, p.waited⟩ = _ :=
          pause_of_wait hwait
        simp only [StateT.bind, hpause]
        cases answer <;> rfl
  · rfl

/-! ### The waits -/

/-- A wait that the context is finished in, strictly before its end, is stopped there. -/
theorem exists_stopped {made from' span t : Nat} (hstart : from' ≤ t) (hend : t < from' + span)
    (hfinished : ¬e.IsPending t) :
    ∃ cause stop, e.wait made from' span = (.error cause.toError, stop) ∧ from' ≤ stop ∧ stop ≤ t ∧
      e.context.HasCause ⟨e.tokens stop, stop⟩ cause ∧ ∀ t', from' ≤ t' → t' < stop →
        e.IsPending t' := by
  have hwait := e.waits made from' span
  rcases hsame : e.wait made from' span with ⟨answer, stop⟩
  rw [hsame] at hwait
  cases hwait with
  | whole hpending => exact absurd (hpending t hstart hend) hfinished
  | stopped hfrom hto hpending hcause =>
    refine ⟨_, stop, rfl, hfrom, ?_, hcause, hpending⟩
    by_contra hlate
    exact hfinished (hpending t hstart (Nat.lt_of_not_le hlate))

/-- A wait that the context is not finished in, and neither at its end, takes its whole span. -/
theorem wait_of_pending {made from' span : Nat} (hpending : ∀ t, from' ≤ t → t ≤ from' + span →
    e.IsPending t) : e.wait made from' span = (.ok (), from' + span) := by
  have hwait := e.waits made from' span
  rcases hsame : e.wait made from' span with ⟨answer, stop⟩
  rw [hsame] at hwait
  cases hwait with
  | whole => rfl
  | stopped hfrom hto _ hcause =>
    exact absurd (hpending stop hfrom hto) hcause.causeAt_ne_none

/-- A wait that is not stopped takes its whole span. -/
theorem wait_of_ok {made from' span : Nat} (h : (e.wait made from' span).1 = .ok ()) :
    e.wait made from' span = (.ok (), from' + span) := by
  have hwait := e.waits made from' span
  rcases hsame : e.wait made from' span with ⟨answer, stop⟩
  rw [hsame] at hwait h
  cases hwait with
  | whole => rfl
  | stopped => cases h

/-! ### The attempts -/

/-- The progress when an attempt begins that follows so many others, if every wait took its
whole span. -/
def reached (e : Endeavour) (start interval n : Nat) : Progress :=
  { now := e.begins start interval n, made := n, waited := n * interval }

/-- The attempt that follows so many others decides nothing, and the wait after it takes its
whole span. -/
structure GoesOn (e : Endeavour) (start interval n : Nat) : Prop where
  undecided : decides (e.outcome n) = false
  waits : e.wait (n + 1) (e.ends start interval n) interval =
    (.ok (), e.begins start interval (n + 1))

/-- The context outlasts the wait after the attempt that follows so many others. It is not finished
in the wait before its end, and where it is at the end, the wait ends first. -/
structure Outlasts (e : Endeavour) (start interval n : Nat) : Prop where
  pending : ∀ t, e.ends start interval n ≤ t → t < e.begins start interval (n + 1) → e.IsPending t
  ties : ¬e.IsPending (e.begins start interval (n + 1)) →
    (e.wait (n + 1) (e.ends start interval n) interval).1 = .ok ()

theorem Outlasts.of_pending (h : ∀ t ≤ e.begins start interval (n + 1), e.IsPending t) :
    e.Outlasts start interval n where
  pending t _ ht := h t (Nat.le_of_lt ht)
  ties hfinished := absurd (h _ (Nat.le_refl _)) hfinished

theorem Outlasts.goesOn (h : e.Outlasts start interval n)
    (hundecided : decides (e.outcome n) = false) : e.GoesOn start interval n where
  undecided := hundecided
  waits := by
    by_cases hend : e.IsPending (e.begins start interval (n + 1))
    · refine wait_of_pending fun t hstart hle => ?_
      rcases Nat.lt_or_eq_of_le hle with hlt | heq
      · exact h.pending t hstart hlt
      · rw [heq]
        exact hend
    · exact wait_of_ok (h.ties hend)

/-- The first so many attempts decide nothing. -/
def Undecided (e : Endeavour) (n : Nat) : Prop := ∀ i < n, decides (e.outcome i) = false

theorem exists_error_of_undecided (h : decides (e.outcome n) = false) :
    ∃ err, e.outcome n = .error err ∧ err.isCancellation = false := by
  rcases houtcome : e.outcome n with err | _ <;> rw [houtcome] at h
  · exact ⟨err, rfl, h⟩
  · cases h

theorem go_of_decides (h : decides (e.outcome n) = true) :
    go e.attempt (e.pause interval) allowed (left + 1) last (e.reached start interval n) =
      (e.outcome n, ⟨e.ends start interval n, n + 1, n * interval⟩) := by
  rw [go_succ, reached]
  rcases houtcome : e.outcome n with err | _
  · rw [houtcome] at h
    have hcancels : err.isCancellation = true := h
    dsimp only
    rw [if_pos hcancels]
    rfl
  · rfl

/-- The last attempt that is allowed decides nothing. -/
theorem go_of_last (h : e.outcome n = .error err) (hundecided : err.isCancellation = false) :
    go e.attempt (e.pause interval) allowed 1 last (e.reached start interval n) =
      (.error (.setup allowed err), ⟨e.ends start interval n, n + 1, n * interval⟩) := by
  rw [go_succ, reached, h]
  dsimp only
  rw [if_neg (Bool.eq_false_iff.1 hundecided), if_pos rfl]
  rfl

/-- An attempt decides nothing, and there are more of them. -/
theorem go_of_undecided (h : decides (e.outcome n) = false) :
    ∃ err, go e.attempt (e.pause interval) allowed (left + 2) last (e.reached start interval n) =
      match e.wait (n + 1) (e.ends start interval n) interval with
      | (.error cause, stop) =>
        (.error cause, ⟨stop, n + 1, n * interval + (stop - e.ends start interval n)⟩)
      | (.ok _, stop) =>
        go e.attempt (e.pause interval) allowed (left + 1) err
          ⟨stop, n + 1, n * interval + (stop - e.ends start interval n)⟩ := by
  obtain ⟨err, houtcome, hundecided⟩ := exists_error_of_undecided h
  refine ⟨err, ?_⟩
  rw [go_succ, reached, houtcome]
  dsimp only
  rw [if_neg (Bool.eq_false_iff.1 hundecided), if_neg (Nat.succ_ne_zero left)]
  rfl

theorem go_of_stopped {cause : Error} (h : decides (e.outcome n) = false)
    (hwait : e.wait (n + 1) (e.ends start interval n) interval = (.error cause, stop)) :
    go e.attempt (e.pause interval) allowed (left + 2) last (e.reached start interval n) =
      (.error cause, ⟨stop, n + 1, n * interval + (stop - e.ends start interval n)⟩) := by
  obtain ⟨err, hgo⟩ := go_of_undecided h
  rw [hgo, hwait]

/-- **An attempt that decides nothing leads to the next one.** -/
theorem GoesOn.go_eq (h : e.GoesOn start interval n) : ∃ err,
    go e.attempt (e.pause interval) allowed (left + 2) last (e.reached start interval n) =
      go e.attempt (e.pause interval) allowed (left + 1) err
        (e.reached start interval (n + 1)) := by
  obtain ⟨err, hgo⟩ := go_of_undecided h.undecided
  have hwhole : e.begins start interval (n + 1) - e.ends start interval n = interval := by
    rw [begins, ends, Nat.add_sub_cancel_left]
  refine ⟨err, ?_⟩
  rw [hgo, h.waits]
  dsimp only
  rw [hwhole, ← Nat.succ_mul]
  rfl

/-- **What is done after attempts that decided nothing.** -/
theorem run_eq_go (hlt : n < attempts policy) (h : ∀ i < n, e.GoesOn start policy.interval i) :
    ∃ last,
    e.run policy start =
      go e.attempt (e.pause policy.interval) (attempts policy) (attempts policy - n) last
      (e.reached start policy.interval n) := by
  induction n with
  | zero =>
    refine ⟨.internal "no setup attempt ran", ?_⟩
    rw [run, Retry.run, reached, Nat.zero_mul]
    rfl
  | succ n ih =>
    obtain ⟨last, hrun⟩ := ih (by omega) fun i hi => h i (Nat.lt_succ_of_lt hi)
    obtain ⟨left, hleft⟩ := Nat.exists_eq_add_of_lt hlt
    rw [show attempts policy - n = left + 2 by omega] at hrun
    rw [show attempts policy - (n + 1) = left + 1 by omega, hrun]
    exact (h n (Nat.lt_succ_self n)).go_eq

/-! ### How many there are -/

theorem run_of_decides (hlt : n < attempts policy) (h : ∀ i < n, e.GoesOn start policy.interval i)
    (hdecides : decides (e.outcome n) = true) :
    e.run policy start =
        (e.outcome n, ⟨e.ends start policy.interval n, n + 1, n * policy.interval⟩) := by
  obtain ⟨last, hrun⟩ := run_eq_go hlt h
  obtain ⟨left, hleft⟩ := Nat.exists_eq_add_of_lt hlt
  rw [hrun, show attempts policy - n = left + 1 by omega, go_of_decides hdecides]

theorem run_of_last (hall : n + 1 = attempts policy) (h : ∀ i < n, e.GoesOn start policy.interval i)
    (houtcome : e.outcome n = .error err) (hundecided : err.isCancellation = false) :
    e.run policy start = (.error (.setup (attempts policy) err),
      ⟨e.ends start policy.interval n, n + 1, n * policy.interval⟩) := by
  obtain ⟨last, hrun⟩ := run_eq_go (by omega) h
  rw [hrun, show attempts policy - n = 1 by omega, go_of_last houtcome hundecided]

theorem run_of_stopped (hlt : n + 1 < attempts policy)
    (h : ∀ i < n, e.GoesOn start policy.interval i) (hundecided : decides (e.outcome n) = false)
    {cause : Error}
    (hwait : e.wait (n + 1) (e.ends start policy.interval n) policy.interval =
      (.error cause, stop)) :
    e.run policy start = (.error cause,
      ⟨stop, n + 1, n * policy.interval + (stop - e.ends start policy.interval n)⟩) := by
  obtain ⟨last, hrun⟩ := run_eq_go (by omega) h
  obtain ⟨left, hleft⟩ := Nat.exists_eq_add_of_lt hlt
  rw [hrun, show attempts policy - n = left + 2 by omega, go_of_stopped hundecided hwait]

/-- **There are exactly as many attempts as there have to be.** Where the context is not finished at
or before the end of any wait, there are attempts up to the first that succeeds or is cancelled, and
what came of it is answered; if none of those that are allowed is, all are made, and the error of
the last one is told. All waits take their whole span. Where the context outlasts some waits and is
finished in the next one, strictly before its end, there is no attempt any more, and its cause is
told as soon as it is finished. -/
theorem run_exactly (e : Endeavour) (policy : RetrySettings) (start : Nat) :
    ((∀ n, n + 1 < attempts policy → e.Undecided (n + 1) →
        ∀ t ≤ e.begins start policy.interval (n + 1), e.IsPending t) →
      (∀ n < attempts policy, e.Undecided n → decides (e.outcome n) = true →
        e.run policy start =
          (e.outcome n, ⟨e.ends start policy.interval n, n + 1, n * policy.interval⟩)) ∧
      (e.Undecided (attempts policy) →
        ∃ n err, attempts policy = n + 1 ∧ e.outcome n = .error err ∧
          e.run policy start = (.error (.setup (n + 1) err),
            ⟨e.ends start policy.interval n, n + 1, n * policy.interval⟩))) ∧
    ∀ n, n + 1 < attempts policy → e.Undecided (n + 1) →
      (∀ i < n, e.Outlasts start policy.interval i) →
      (∃ t, e.ends start policy.interval n ≤ t ∧ t < e.begins start policy.interval (n + 1) ∧
        ¬e.IsPending t) → ∃ cause stop, e.run policy start = (.error cause.toError,
            ⟨stop, n + 1, n * policy.interval + (stop - e.ends start policy.interval n)⟩) ∧
          e.context.HasCause ⟨e.tokens stop, stop⟩ cause ∧ e.ends start policy.interval n ≤ stop ∧
          stop < e.begins start policy.interval (n + 1) ∧
          ∀ t, e.ends start policy.interval n ≤ t → t < stop → e.IsPending t := by
  refine ⟨fun hcalm => ?calm, ?stopped⟩
  case calm =>
    have hgoesOn : ∀ n, n + 1 < attempts policy → e.Undecided (n + 1) →
        e.GoesOn start policy.interval n :=
      fun n hlt hundecided =>
        (Outlasts.of_pending (hcalm n hlt hundecided)).goesOn (hundecided n (Nat.lt_succ_self n))
    constructor
    · intro n hlt hundecided hdecides
      exact run_of_decides hlt
        (fun i hi => hgoesOn i (by omega) fun j hj => hundecided j (by omega)) hdecides
    · intro hundecided
      obtain ⟨n, hall⟩ := Nat.exists_eq_succ_of_ne_zero (Nat.ne_of_gt (attempts_pos policy))
      obtain ⟨err, houtcome, hnot⟩ := exists_error_of_undecided (hundecided n (by omega))
      refine ⟨n, err, hall, houtcome, ?_⟩
      rw [run_of_last hall.symm
        (fun i hi => hgoesOn i (by omega) fun j hj => hundecided j (by omega)) houtcome hnot, hall]
  case stopped =>
    rintro n hlt hundecided houtlasts ⟨t, hstart, hend, hfinished⟩
    obtain ⟨cause, stop, hwait, hfrom, hto, hcause, hbefore⟩ := exists_stopped hstart hend hfinished
    refine ⟨cause, stop, ?_, hcause, hfrom, Nat.lt_of_le_of_lt hto hend, hbefore⟩
    exact run_of_stopped hlt (fun i hi => (houtlasts i hi).goesOn (hundecided i (by omega)))
      (hundecided n (by omega)) hwait

/-- Attempts that fail at once, under a context with a deadline. -/
def futile : Endeavour where
  context := { lineage := [0], deadline := some 250 }
  tokens _ := {}
  outcome _ := .error (.internal "not ready")
  duration _ := 0
  wait _ := prompt _ _
  waits _ := pauses_prompt _ _

/-- Three attempts are over before the deadline. Of five that are allowed only three are made, as
the deadline is in the third wait. -/
theorem run_exactly_futile :
    futile.run { interval := 100, attempts := 3 } 0 =
      (.error (.setup 3 (.internal "not ready")), ⟨200, 3, 200⟩) ∧
      ∃ cause stop, futile.run { interval := 100, attempts := 5 } 0 =
          (.error cause.toError, ⟨stop, 3, 200 + (stop - 200)⟩) ∧
        futile.context.HasCause ⟨futile.tokens stop, stop⟩ cause ∧ 200 ≤ stop ∧ stop < 300 ∧
        ∀ t, 200 ≤ t → t < stop → futile.IsPending t := by
  have hpending : ∀ t < 250, futile.IsPending t := fun t ht => by
    refine Context.causeAt_eq_none_iff.2 ⟨rfl, fun time htime => ?_⟩
    cases htime
    exact ht
  have hbegins : ∀ n, futile.begins 0 100 n = n * 100 := fun n => by
    induction n with
    | zero => rfl
    | succ n ih => rw [begins, ih, Nat.succ_mul]; rfl
  have hundecided : ∀ i, decides (futile.outcome i) = false := fun _ => rfl
  constructor
  · obtain ⟨n, err, hall, houtcome, hrun⟩ :=
      ((futile.run_exactly { interval := 100, attempts := 3 } 0).1
        fun n hlt _ t ht => hpending t (by
          rw [hbegins] at ht
          have hlt : n + 1 < 3 := hlt
          omega)).2 fun i _ => hundecided i
    cases hall
    cases houtcome
    exact hrun
  · refine (futile.run_exactly { interval := 100, attempts := 5 } 0).2 2 (by decide)
      (fun i _ => hundecided i)
      (fun i hi => .of_pending fun t ht => ?_) ⟨250, by decide, by decide, by decide⟩
    rw [hbegins] at ht
    exact hpending t (by omega)

end Endeavour

end Retry

end RevisionLog
