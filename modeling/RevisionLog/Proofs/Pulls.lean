import RevisionLog.Proofs.Tracking

/-!
# What pulls keep

A watcher is pulled by polls and by waits, which share what it holds back. Whatever is true of how
far a watcher has read, of what it suspects and of all that it handed out or holds back, every pull
keeps, if every fetch and every pause does. An error that is final ends a watcher, and nothing comes
of it afterwards.

* `Watcher.Fetched`, `Watcher.Polled`, `Watcher.Rounded` — what comes of a fetch, of a poll, and of
  a round of waiting.
* `Watcher.Fetched.keeps` — a fetch moves nothing but the position and the suspicion.
* `Watcher.Keeps` — fetches and pauses keep a property; `Keeps.poll`, `Keeps.next` — then pulls keep
  it.
* `Watcher.HasEnded.poll_eq`, `HasEnded.next_eq` — what comes of a watcher that has ended.
* `Watcher.Polled.done_eq`, `Watcher.done_of_next` — which pulls end a watcher; waiting tells of no
  other errors.
-/

namespace RevisionLog.Watcher

variable {σ : Type} {source : Source (StateM σ)} {pause : StateM σ Rest} {bound : StateM σ Nat}
variable {w w' : Watcher} {s s' : σ} {fuel rounds : Nat}

/-- What a verdict on rows says, which reach a position and tell of a missing id or of none. -/
inductive Judged (w w' : Watcher) (batch : List Entry) (missing : Option Int) : Verdict → Prop
  /-- the next id is missing, as it was before, and nothing else was read -/
  | claim (hmissing : missing = some (w'.position + 1)) (hnothing : batch = [])
    (hsuspect : w.suspect = some (w'.position + 1)) (hnone : w'.suspect = none) :
    Judged w w' batch missing (.claim (w'.position + 1))
  | miss (hmissing : missing = some (w'.position + 1))
      (hnew : ¬(batch = [] ∧ w.suspect = some (w'.position + 1)))
    (hsuspect : w'.suspect = some (w'.position + 1)) : Judged w w' batch missing (.deliver batch)
  /-- only placeholders were read -/
  | again (hmissing : missing = none) (hnothing : batch = []) (hlt : w.position < w'.position)
    (hsuspect : w'.suspect = w.suspect) : Judged w w' batch missing .again
  | all (hmissing : missing = none) (hsome : ¬(batch = [] ∧ w.position < w'.position))
      (hnone : w'.suspect = none) :
    Judged w w' batch missing (.deliver batch)

/-- **What a read makes of a watcher.** -/
theorem of_judge {rows : List Entry} {verdict : Verdict} (h : w.judge rows = (verdict, w')) :
    w'.position = (absorb w.position rows).1 ∧ verdict.batch = (absorb w.position rows).2.1 ∧
      Judged w w' (absorb w.position rows).2.1 (absorb w.position rows).2.2 verdict := by
  rcases habsorb : absorb w.position rows with ⟨reached, batch, missing⟩
  obtain ⟨es, rest, -, -, -, hend⟩ := exists_split_of_absorb habsorb
  rw [judge, habsorb] at h
  dsimp only at h ⊢
  rcases hend with ⟨rfl, -⟩ | ⟨rfl, -⟩ <;> dsimp only at h <;> split at h <;> cases h
  · next hagain =>
    have hnothing := List.isEmpty_iff.1 hagain.1
    exact ⟨rfl, hnothing.symm, .again rfl hnothing hagain.2 rfl⟩
  · next hagain => exact ⟨rfl, rfl, .all rfl (by simpa using hagain) rfl⟩
  · next hclaim =>
    have hnothing := List.isEmpty_iff.1 hclaim.1
    exact ⟨rfl, hnothing.symm, .claim rfl hnothing hclaim.2 rfl⟩
  · next hclaim => exact ⟨rfl, rfl, .miss rfl (by simpa using hclaim) rfl⟩

theorem keeps_of_judge {rows : List Entry} {verdict : Verdict} (h : w.judge rows = (verdict, w')) :
    w'.cursor = w.cursor ∧ w'.pending = w.pending ∧ w'.done = w.done := by
  obtain ⟨-, -, -, -, hkeeps⟩ := exists_trail_of_judge h
  exact hkeeps

theorem Judged.id_eq {batch : List Entry} {missing : Option Int} {id : Int}
    (h : Judged w w' batch missing (.claim id)) : id = w'.position + 1 := by
  cases h
  rfl

/-! ## What comes of fetches -/

/-- What comes of a fetch in so many rounds, one round after the other. -/
inductive Fetched (source : Source (StateM σ)) :
    Nat → Watcher → σ → Except Error (List Entry) → Watcher → σ → Prop
  /-- no round is left -/
  | spent (w : Watcher) (s : σ) : Fetched source 0 w s (.ok []) w s
  | unread {fuel : Nat} {w : Watcher} {s s₁ : σ} {e : Error}
      (hread : source.read w.position s = (.error e, s₁)) :
    Fetched source (fuel + 1) w s (.error e) w s₁
  | delivered {fuel : Nat} {w w₁ : Watcher} {s s₁ : σ} {rows batch : List Entry}
    (hread : source.read w.position s = (.ok rows, s₁))
    (hjudge : w.judge rows = (.deliver batch, w₁)) :
    Fetched source (fuel + 1) w s (.ok batch) w₁ s₁
  | again {fuel : Nat} {w w₁ w' : Watcher} {s s₁ s' : σ} {rows : List Entry}
      {outcome : Except Error (List Entry)}
    (hread : source.read w.position s = (.ok rows, s₁)) (hjudge : w.judge rows = (.again, w₁))
    (hrest : Fetched source fuel w₁ s₁ outcome w' s') : Fetched source (fuel + 1) w s outcome w' s'
  | claimed {fuel : Nat} {w w₁ w' : Watcher} {s s₁ s₂ s' : σ} {rows : List Entry} {id : Int}
    {answer : Except Error Unit} {outcome : Except Error (List Entry)}
    (hread : source.read w.position s = (.ok rows, s₁)) (hjudge : w.judge rows = (.claim id, w₁))
    (hclaim : source.claim id s₁ = (answer, s₂)) (hsettled : settled answer = none)
    (hrest : Fetched source fuel w₁ s₂ outcome w' s') : Fetched source (fuel + 1) w s outcome w' s'
  | unclaimed {fuel : Nat} {w w₁ : Watcher} {s s₁ s₂ : σ} {rows : List Entry} {id : Int}
      {answer : Except Error Unit}
    {e : Error} (hread : source.read w.position s = (.ok rows, s₁))
    (hjudge : w.judge rows = (.claim id, w₁))
    (hclaim : source.claim id s₁ = (answer, s₂)) (hsettled : settled answer = some e) :
    Fetched source (fuel + 1) w s (.error e) w₁ s₂

theorem fetched_of_fetch {outcome : Except Error (List Entry)}
    (hfetch : fetch source fuel w s = ((outcome, w'), s')) :
    Fetched source fuel w s outcome w' s' := by
  induction fuel generalizing w s with
  | zero =>
    cases hfetch
    exact .spent _ _
  | succ fuel ih =>
    rw [fetch_succ] at hfetch
    rcases hread : source.read w.position s with ⟨e | rows, s₁⟩ <;> rw [hread] at hfetch <;>
      dsimp only at hfetch
    · cases hfetch
      exact .unread hread
    · rcases hjudge : w.judge rows with ⟨batch | _ | id, w₁⟩ <;> rw [hjudge] at hfetch <;>
        dsimp only at hfetch
      · cases hfetch
        exact .delivered hread hjudge
      · exact .again hread hjudge (ih hfetch)
      · rcases hclaim : source.claim id s₁ with ⟨answer, s₂⟩
        rw [hclaim] at hfetch
        dsimp only at hfetch
        rcases hsettled : settled answer with _ | e <;> rw [hsettled] at hfetch
        · exact .claimed hread hjudge hclaim hsettled (ih hfetch)
        · cases hfetch
          exact .unclaimed hread hjudge hclaim hsettled

namespace Fetched

variable {outcome : Except Error (List Entry)}

/-- **A fetch moves nothing but the position and the suspicion.** -/
theorem keeps (h : Fetched source fuel w s outcome w' s') :
    w'.cursor = w.cursor ∧ w'.pending = w.pending ∧ w'.done = w.done := by
  induction h with
  | spent => exact ⟨rfl, rfl, rfl⟩
  | unread => exact ⟨rfl, rfl, rfl⟩
  | delivered hread hjudge => exact keeps_of_judge hjudge
  | again hread hjudge hrest ih =>
    obtain ⟨hcursor, hpending, hdone⟩ := keeps_of_judge hjudge
    exact ⟨ih.1.trans hcursor, ih.2.1.trans hpending, ih.2.2.trans hdone⟩
  | claimed hread hjudge hclaim hsettled hrest ih =>
    obtain ⟨hcursor, hpending, hdone⟩ := keeps_of_judge hjudge
    exact ⟨ih.1.trans hcursor, ih.2.1.trans hpending, ih.2.2.trans hdone⟩
  | unclaimed hread hjudge => exact keeps_of_judge hjudge

/-- What every read and every claim keeps of what a watcher runs in, a fetch keeps. -/
theorem invariant {Q : σ → Prop} (hread : ∀ position s, Q s → Q (source.read position s).2)
    (hclaim : ∀ id s, Q s → Q (source.claim id s).2) (h : Fetched source fuel w s outcome w' s')
    (hQ : Q s) :
    Q s' := by
  have hreads : ∀ {position : Int} {s s' : σ} {answer : Except Error (List Entry)},
      source.read position s = (answer, s') → Q s → Q s' := by
    intro position s s' answer hanswer hQ
    have hafter := hread position s hQ
    rwa [hanswer] at hafter
  have hclaims : ∀ {id : Int} {s s' : σ} {answer : Except Error Unit},
      source.claim id s = (answer, s') → Q s → Q s' := by
    intro id s s' answer hanswer hQ
    have hafter := hclaim id s hQ
    rwa [hanswer] at hafter
  induction h with
  | spent => exact hQ
  | unread hread => exact hreads hread hQ
  | delivered hread => exact hreads hread hQ
  | again hread hjudge hrest ih => exact ih (hreads hread hQ)
  | claimed hread hjudge hclaim hsettled hrest ih => exact ih (hclaims hclaim (hreads hread hQ))
  | unclaimed hread hjudge hclaim => exact hclaims hclaim (hreads hread hQ)

end Fetched

/-! ## What comes of pulls -/

/-- A watcher that has ended holds nothing back and has nothing more to say. -/
def HasEnded (w : Watcher) : Prop := w.done = true ∧ w.pending = []

/-- What comes of a poll. -/
inductive Polled (source : Source (StateM σ)) (fuel : Nat) (w : Watcher) (s : σ) :
    Except Error (List Entry) → Watcher → σ → Prop
  | flushed (hsome : w.pending ≠ []) :
    Polled source fuel w s (.ok w.pending) { w with cursor := w.position, pending := [] } s
  | ended (hended : w.HasEnded) : Polled source fuel w s (.ok []) w s
  | fetched {batch : List Entry} {w₁ : Watcher} {s₁ : σ} (hopen : w.done = false)
      (hnone : w.pending = [])
    (hfetch : Fetched source fuel w s (.ok batch) w₁ s₁) (hopen' : w₁.done = false)
    (hnone' : w₁.pending = []) :
    Polled source fuel w s (.ok batch) { w₁ with cursor := w₁.position } s₁
  | failed {e : Error} {w₁ : Watcher} {s₁ : σ} (hopen : w.done = false) (hnone : w.pending = [])
    (hfetch : Fetched source fuel w s (.error e) w₁ s₁) (hopen' : w₁.done = false)
    (hnone' : w₁.pending = []) :
    Polled source fuel w s (.error e) (w₁.fail e) s₁

theorem polled_of_poll {outcome : Except Error (List Entry)}
    (hpoll : poll source fuel w s = ((outcome, w'), s')) :
    Polled source fuel w s outcome w' s' := by
  rw [poll_eq] at hpoll
  split at hpoll
  · next hsome =>
    cases hpoll
    exact .flushed (by simpa using hsome)
  · next hempty =>
    have hnone : w.pending = [] := by simpa using hempty
    split at hpoll
    · next hdone =>
      cases hpoll
      exact .ended ⟨hdone, hnone⟩
    · next hdone =>
      have hopen : w.done = false := eq_false_of_ne_true hdone
      rcases hfetch : fetch source fuel w s with ⟨⟨e | batch, w₁⟩, s₁⟩ <;> rw [hfetch] at hpoll <;>
        cases hpoll <;>
        have hfetched := fetched_of_fetch hfetch <;> obtain ⟨-, hpending, hstays⟩ := hfetched.keeps
      · exact .failed hopen hnone hfetched (hstays.trans hopen) (hpending.trans hnone)
      · exact .fetched hopen hnone hfetched (hstays.trans hopen) (hpending.trans hnone)

/-- What comes of a round of waiting. -/
inductive Rounded (source : Source (StateM σ)) (fuel : Nat) (w : Watcher) (s : σ) :
    Pull → Watcher → σ → Prop
  | popped {e : Entry} {w₁ : Watcher} (hpop : w.pop = some (e, w₁)) :
      Rounded source fuel w s (.entry e) w₁ s
  | ended (hended : w.HasEnded) : Rounded source fuel w s .ended w s
  | fetched {batch : List Entry} {w₁ w₂ : Watcher} {s₁ : σ} {e : Entry} (hopen : w.done = false)
    (hnone : w.pending = []) (hfetch : Fetched source fuel w s (.ok batch) w₁ s₁)
    (hopen' : w₁.done = false)
    (hnone' : w₁.pending = []) (hpop : { w₁ with pending := batch }.pop = some (e, w₂)) :
    Rounded source fuel w s (.entry e) w₂ s₁
  | nothing {w₁ : Watcher} {s₁ : σ} (hopen : w.done = false) (hnone : w.pending = [])
    (hfetch : Fetched source fuel w s (.ok []) w₁ s₁) (hopen' : w₁.done = false)
    (hnone' : w₁.pending = []) :
    Rounded source fuel w s .nothing { w₁ with cursor := w₁.position } s₁
  | failed {e : Error} {w₁ : Watcher} {s₁ : σ} (hopen : w.done = false) (hnone : w.pending = [])
    (hfetch : Fetched source fuel w s (.error e) w₁ s₁) (hopen' : w₁.done = false)
    (hnone' : w₁.pending = [])
    (hfinal : e.isTerminal = true) : Rounded source fuel w s (.failed e) (w₁.fail e) s₁
  /-- an error that is not final -/
  | retried {e : Error} {w₁ : Watcher} {s₁ : σ} (hopen : w.done = false) (hnone : w.pending = [])
    (hfetch : Fetched source fuel w s (.error e) w₁ s₁) (hopen' : w₁.done = false)
    (hnone' : w₁.pending = []) :
    Rounded source fuel w s .nothing w₁ s₁

theorem rounded_of_round {pull : Pull} (hround : round source fuel w s = ((pull, w'), s')) :
    Rounded source fuel w s pull w' s' := by
  rw [round_eq] at hround
  rcases hpop : w.pop with _ | ⟨e, w₁⟩ <;> rw [hpop] at hround <;> dsimp only at hround
  · have hnone := pending_eq_nil_of_pop hpop
    split at hround
    · next hdone =>
      cases hround
      exact .ended ⟨hdone, hnone⟩
    · next hdone =>
      have hopen : w.done = false := eq_false_of_ne_true hdone
      rcases hfetch : fetch source fuel w s with ⟨⟨e | batch, w₁⟩, s₁⟩ <;> rw [hfetch] at hround <;>
        dsimp only at hround <;> have hfetched := fetched_of_fetch hfetch <;>
        obtain ⟨-, hpending, hstays⟩ := hfetched.keeps
      · split at hround
        · next hfinal =>
          cases hround
          exact .failed hopen hnone hfetched (hstays.trans hopen) (hpending.trans hnone) hfinal
        · cases hround
          exact .retried hopen hnone hfetched (hstays.trans hopen) (hpending.trans hnone)
      · rcases hfirst : { w₁ with pending := batch }.pop with _ | ⟨e, w₂⟩ <;>
          rw [hfirst] at hround <;> cases hround
        · obtain rfl : batch = [] := pending_eq_nil_of_pop hfirst
          exact .nothing hopen hnone hfetched (hstays.trans hopen) (hpending.trans hnone)
        · exact .fetched hopen hnone hfetched (hstays.trans hopen) (hpending.trans hnone) hfirst
  · cases hround
    exact .popped hpop

/-- A round that finds nothing leaves a watcher that has not ended and holds nothing back. -/
theorem Rounded.of_nothing (h : Rounded source fuel w s .nothing w' s') :
    w'.done = false ∧ w'.pending = [] := by
  cases h with
  | nothing hopen hnone hfetch hopen' hnone' => exact ⟨hopen', hnone'⟩
  | retried hopen hnone hfetch hopen' hnone' => exact ⟨hopen', hnone'⟩

/-! ## Properties that pulls keep -/

/-- What may be said of a watcher and what it runs in: whether it has ended, what it suspects, how
far it has read, and all that it handed out or holds back. -/
def Property (σ : Type) : Type := (ended : Bool) → (suspect : Option Int) → (position : Int) →
    List Entry → σ → Prop

/-- A property of a watcher that handed out entries. One that has ended holds nothing back. -/
def Property.Of (P : Property σ) (w : Watcher) (delivered : List Entry) (s : σ) : Prop :=
  (w.done = true → w.pending = []) ∧ P w.done w.suspect w.position (delivered ++ w.pending) s

/-- Fetches and pauses keep a property. Before every fetch its bound is asked for, which may make
the fetch ready. -/
structure Keeps (source : Source (StateM σ)) (pause : StateM σ Rest) (bound : StateM σ Nat)
    (Ready : σ → Prop) (P : Property σ) : Prop where
  readies : ∀ {ended suspect position es s}, P ended suspect position es s →
    P ended suspect position es (bound s).2 ∧ Ready (bound s).2
  fetches : ∀ {fuel w es s outcome w' s'}, P false w.suspect w.position es s → Ready s →
    Fetched source fuel w s outcome w' s' → P false w'.suspect w'.position (es ++ given outcome) s'
  pauses : ∀ {ended suspect position es s}, P ended suspect position es s →
    P ended suspect position es (pause s).2
  /-- an error of a fetch that is final -/
  ends : ∀ {fuel w es s e w' s'}, P false w.suspect w.position es s → Ready s →
    Fetched source fuel w s (.error e) w' s' → e.isTerminal = true →
      P true w'.suspect w'.position es s'
  /-- a pause that is stopped -/
  stops : ∀ {suspect position es s cause}, P false suspect position es s →
    (pause s).1 = .stopped cause → P true suspect position es (pause s).2

/-- For a property that holds of a watcher that has ended as of any other one, there is less
to show. -/
theorem Keeps.regardless {Ready : σ → Prop} {Q : Option Int → Int → List Entry → σ → Prop}
    (readies : ∀ {suspect position es s}, Q suspect position es s →
      Q suspect position es (bound s).2 ∧ Ready (bound s).2)
    (fetches : ∀ {fuel w es s outcome w' s'}, Q w.suspect w.position es s → Ready s →
      Fetched source fuel w s outcome w' s' → Q w'.suspect w'.position (es ++ given outcome) s')
    (pauses : ∀ {suspect position es s}, Q suspect position es s →
      Q suspect position es (pause s).2) :
    Keeps source pause bound Ready fun _ => Q where
  readies h := readies h
  fetches h hready hfetch := fetches h hready hfetch
  pauses h := pauses h
  ends h hready hfetch _ := by
    have hgoes := fetches h hready hfetch
    rwa [given, List.append_nil] at hgoes
  stops h _ := pauses h

namespace Property.Of

variable {P : Property σ} {delivered : List Entry}

theorem flush (h : P.Of w delivered s) :
    P.Of { w with cursor := w.position, pending := [] } (delivered ++ w.pending) s := by
  refine ⟨fun _ => rfl, ?_⟩
  rw [List.append_nil]
  exact h.2

theorem pop (h : P.Of w delivered s) {e : Entry} (hpop : w.pop = some (e, w')) :
    P.Of w' (delivered ++ [e]) s := by
  rcases hpending : w.pending with _ | ⟨f, rest⟩ <;> rw [Watcher.pop, hpending] at hpop <;>
    cases hpop
  refine ⟨fun hdone => ?_, ?_⟩
  · have hnone := h.1 hdone
    rw [hpending] at hnone
    cases hnone
  · have hsame := h.2
    rw [hpending] at hsame
    rw [List.append_assoc]
    exact hsame

theorem open_ (hopen : w.done = false)
    (h : P false w.suspect w.position (delivered ++ w.pending) s) : P.Of w delivered s := by
  refine ⟨fun hdone => ?_, ?_⟩
  · rw [hopen] at hdone
    cases hdone
  · rw [hopen]
    exact h

/-- Of a watcher that has not ended and holds nothing back. -/
theorem of_nil (h : P.Of w delivered s) (hopen : w.done = false) (hnone : w.pending = []) :
    P false w.suspect w.position delivered s := by
  have hsame := h.2
  rw [hopen, hnone, List.append_nil] at hsame
  exact hsame

/-- After an error, of a watcher that had not ended and held nothing back. -/
theorem fail (hopen : w.done = false) (hnone : w.pending = []) {e : Error}
    (hstays : P false w.suspect w.position delivered s)
    (hends : e.isTerminal = true → P true w.suspect w.position delivered s) :
    P.Of (w.fail e) delivered s := by
  unfold Watcher.fail
  split
  · next hfinal =>
    refine ⟨fun _ => rfl, ?_⟩
    rw [List.append_nil]
    exact hends hfinal
  · refine .open_ hopen ?_
    rw [hnone, List.append_nil]
    exact hstays

end Property.Of

namespace Keeps

variable {Ready : σ → Prop} {P : Property σ} {delivered : List Entry}

/-- A fetch that went well, with what it delivers pending. -/
theorem fetch_ok (h : Keeps source pause bound Ready P) (hP : P.Of w delivered s) (hready : Ready s)
    (hopen : w.done = false) (hnone : w.pending = []) {batch : List Entry}
    (hfetch : Fetched source fuel w s (.ok batch) w' s') (hopen' : w'.done = false) :
    P.Of { w' with pending := batch } delivered s' :=
  .open_ hopen' (h.fetches (hP.of_nil hopen hnone) hready hfetch)

/-- A fetch that failed. -/
theorem fetch_error (h : Keeps source pause bound Ready P) (hP : P.Of w delivered s)
    (hready : Ready s) (hopen : w.done = false) (hnone : w.pending = []) {e : Error}
    (hfetch : Fetched source fuel w s (.error e) w' s') :
    P false w'.suspect w'.position delivered s' := by
  have hgoes := h.fetches (hP.of_nil hopen hnone) hready hfetch
  rwa [given, List.append_nil] at hgoes

/-- **A poll keeps what fetches keep.** -/
theorem poll (h : Keeps source pause bound Ready P) (hP : P.Of w delivered s) (hready : Ready s)
    {outcome : Except Error (List Entry)} (hpoll : Polled source fuel w s outcome w' s') :
    P.Of w' (delivered ++ given outcome) s' := by
  cases hpoll with
  | flushed => exact hP.flush
  | ended =>
    rw [given, List.append_nil]
    exact hP
  | fetched hopen hnone hfetch hopen' hnone' =>
    have hflush := (h.fetch_ok hP hready hopen hnone hfetch hopen').flush
    rw [← hnone'] at hflush
    exact hflush
  | failed hopen hnone hfetch hopen' hnone' =>
    rw [given, List.append_nil]
    exact .fail hopen' hnone' (h.fetch_error hP hready hopen hnone hfetch)
      (h.ends (hP.of_nil hopen hnone) hready hfetch)

/-- A round keeps what fetches keep. -/
theorem round (h : Keeps source pause bound Ready P) (hP : P.Of w delivered s) (hready : Ready s)
    {pull : Pull} (hround : Rounded source fuel w s pull w' s') :
    P.Of w' (delivered ++ pull.entries) s' := by
  cases hround with
  | popped hpop => exact hP.pop hpop
  | ended =>
    rw [Pull.entries, List.append_nil]
    exact hP
  | fetched hopen hnone hfetch hopen' hnone' hpop =>
    exact (h.fetch_ok hP hready hopen hnone hfetch hopen').pop hpop
  | nothing hopen hnone hfetch hopen' hnone' =>
    have hgoes := h.fetches (hP.of_nil hopen hnone) hready hfetch
    refine .open_ hopen' ?_
    dsimp only
    rw [hnone', List.append_nil]
    exact hgoes
  | failed hopen hnone hfetch hopen' hnone' =>
    rw [Pull.entries, List.append_nil]
    exact .fail hopen' hnone' (h.fetch_error hP hready hopen hnone hfetch)
      (h.ends (hP.of_nil hopen hnone) hready hfetch)
  | retried hopen hnone hfetch hopen' hnone' =>
    refine .open_ hopen' ?_
    rw [Pull.entries, hnone', List.append_nil, List.append_nil]
    exact h.fetch_error hP hready hopen hnone hfetch

/-- **Waiting keeps what fetches and pauses keep.** -/
theorem next (h : Keeps source pause bound Ready P) (hP : P.Of w delivered s) {pull : Pull}
    (hnext : next source pause bound rounds w s = ((pull, w'), s')) :
    P.Of w' (delivered ++ pull.entries) s' := by
  induction rounds generalizing w s with
  | zero =>
    cases hnext
    rw [Pull.entries, List.append_nil]
    exact hP
  | succ rounds ih =>
    have hbegun : P.Of w delivered (bound s).2 := ⟨hP.1, (h.readies hP.2).1⟩
    have hready := (h.readies hP.2).2
    rw [next_succ] at hnext
    rcases hbound : bound s with ⟨n, s₀⟩
    rw [hbound] at hnext hbegun hready
    dsimp only at hnext
    rcases hround : Watcher.round source n w s₀ with ⟨⟨pulled, w₁⟩, s₁⟩
    have hrounded := rounded_of_round hround
    have hafter := h.round hbegun hready hrounded
    rw [hround] at hnext
    cases pulled with
    | nothing =>
      rw [Pull.entries, List.append_nil] at hafter
      have hpaused : P.Of w₁ delivered (pause s₁).2 := ⟨hafter.1, h.pauses hafter.2⟩
      dsimp only at hnext
      rcases hpause : pause s₁ with ⟨_ | cause | _, s₂⟩ <;> rw [hpause] at hnext hpaused
      · exact ih hpaused hnext
      · cases hnext
        have hfinal : cause.toError.isTerminal = true := by cases cause <;> rfl
        obtain ⟨hopen, hnone⟩ := hrounded.of_nothing
        have hstopped := h.stops (hafter.of_nil hopen hnone) (congrArg Prod.fst hpause)
        rw [hpause] at hstopped
        rw [Pull.entries, List.append_nil, Watcher.fail, if_pos hfinal]
        refine ⟨fun _ => rfl, ?_⟩
        rw [List.append_nil]
        exact hstopped
      · cases hnext
        rw [Pull.entries, List.append_nil]
        exact hpaused
    | entry e =>
      cases hnext
      exact hafter
    | ended =>
      cases hnext
      exact hafter
    | failed e =>
      cases hnext
      exact hafter

end Keeps

/-! ## The end of a watcher -/

theorem HasEnded.poll_eq (h : w.HasEnded) (source : Source (StateM σ)) (fuel : Nat) (s : σ) :
    poll source fuel w s = ((.ok [], w), s) := by
  rw [RevisionLog.poll_eq, h.1, h.2]
  rfl

theorem HasEnded.next_eq (h : w.HasEnded) (source : Source (StateM σ)) (pause : StateM σ Rest)
    (bound : StateM σ Nat) (rounds : Nat) (s : σ) :
    next source pause bound (rounds + 1) w s = ((.ended, w), (bound s).2) := by
  have hpop : w.pop = none := by rw [pop, h.2]
  rw [next_succ]
  rcases bound s with ⟨n, s₀⟩
  dsimp only
  rw [round_eq, hpop, h.1]
  rfl

/-- An error that is told, and that is final. -/
def Pull.isFinal : Pull → Bool
  | entry _ => false
  | ended => false
  | failed e => e.isTerminal
  | nothing => false

theorem done_fail (w : Watcher) (e : Error) : (w.fail e).done = (w.done || e.isTerminal) := by
  unfold fail
  split
  · next hfinal => rw [hfinal, Bool.or_true]
  · next hstays => rw [eq_false_of_ne_true hstays, Bool.or_false]

theorem done_of_pop {e : Entry} (h : w.pop = some (e, w')) : w'.done = w.done := by
  unfold pop at h
  split at h <;> cases h
  rfl

/-- A poll ends a watcher just where it tells of an error that is final. -/
theorem Polled.done_eq {outcome : Except Error (List Entry)}
    (h : Polled source fuel w s outcome w' s') : w'.done = (w.done || match outcome with
      | .ok _ => false
      | .error e => e.isTerminal) := by
  cases h with
  | flushed => exact (Bool.or_false _).symm
  | ended => exact (Bool.or_false _).symm
  | fetched hopen hnone hfetch hopen' =>
    exact (hopen'.trans hopen.symm).trans (Bool.or_false _).symm
  | failed hopen hnone hfetch hopen' => rw [done_fail, hopen', hopen]

/-- A poll leaves nothing that is held back. -/
theorem Polled.pending_eq {outcome : Except Error (List Entry)}
    (h : Polled source fuel w s outcome w' s') : w'.pending = [] := by
  cases h with
  | flushed => rfl
  | ended hended => exact hended.2
  | fetched hopen hnone hfetch hopen' hnone' => exact hnone'
  | failed hopen hnone hfetch hopen' hnone' =>
    unfold fail
    split
    · rfl
    · exact hnone'

/-- A round ends a watcher just where it tells of an error, and tells of none that is not final. -/
theorem Rounded.done_eq {pull : Pull} (h : Rounded source fuel w s pull w' s') :
    w'.done = (w.done || pull.isFinal) ∧ ∀ e, pull = .failed e → e.isTerminal = true := by
  cases h with
  | popped hpop => exact ⟨(done_of_pop hpop).trans (Bool.or_false _).symm, fun e he => by cases he⟩
  | ended => exact ⟨(Bool.or_false _).symm, fun e he => by cases he⟩
  | fetched hopen hnone hfetch hopen' hnone' hpop =>
    exact ⟨((done_of_pop hpop).trans (hopen'.trans hopen.symm)).trans (Bool.or_false _).symm,
      fun e he => by cases he⟩
  | nothing hopen hnone hfetch hopen' =>
    exact ⟨(hopen'.trans hopen.symm).trans (Bool.or_false _).symm, fun e he => by cases he⟩
  | failed hopen hnone hfetch hopen' hnone' hfinal =>
    refine ⟨by rw [done_fail, hopen', hopen, Pull.isFinal], ?_⟩
    rintro _ ⟨⟩
    exact hfinal
  | retried hopen hnone hfetch hopen' =>
    exact ⟨(hopen'.trans hopen.symm).trans (Bool.or_false _).symm, fun e he => by cases he⟩

/-- **Waiting tells of no error that is not final**, and ends a watcher just where it tells
of one. -/
theorem done_of_next {pull : Pull} (hnext : next source pause bound rounds w s = ((pull, w'), s')) :
    w'.done = (w.done || pull.isFinal) ∧ ∀ e, pull = .failed e → e.isTerminal = true := by
  induction rounds generalizing w s with
  | zero =>
    cases hnext
    exact ⟨(Bool.or_false _).symm, fun e he => by cases he⟩
  | succ rounds ih =>
    rw [next_succ] at hnext
    rcases hbound : bound s with ⟨n, s₀⟩
    rw [hbound] at hnext
    dsimp only at hnext
    rcases hround : round source n w s₀ with ⟨⟨pulled, w₁⟩, s₁⟩
    have hafter := (rounded_of_round hround).done_eq
    rw [hround] at hnext
    cases pulled with
    | nothing =>
      have hdone : w₁.done = w.done := hafter.1.trans (Bool.or_false _)
      dsimp only at hnext
      rcases hpause : pause s₁ with ⟨_ | cause | _, s₂⟩ <;> rw [hpause] at hnext
      · rw [← hdone]
        exact ih hnext
      · cases hnext
        refine ⟨by rw [done_fail, hdone, Pull.isFinal], ?_⟩
        rintro _ ⟨⟩
        cases cause <;> rfl
      · cases hnext
        exact ⟨hafter.1, fun e he => by cases he⟩
    | entry f =>
      cases hnext
      exact hafter
    | ended =>
      cases hnext
      exact hafter
    | failed f =>
      cases hnext
      exact hafter

end RevisionLog.Watcher
