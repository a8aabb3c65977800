import RevisionLog.Proofs.Scene

/-!
# Suspicion

An id that is missing below a greater one may be that of a row that is about to appear, and a
watcher that claimed it would keep that row away from everybody. So a watcher claims an id only
where it was missing in the last read of the last fetch that did not fail, and is missing still.
Whatever others do meanwhile, and whatever fails.

* `Scene.Watchful` — what a suspicion rests on; `Scene.Begun` — the same, while a fetch is under
  way.
* `Scene.Begun.claimed` — a claim is justified; `Scene.Begun.fetch` — a fetch keeps what suspicions
  rest on.
* `Trial.Prudent` — what is promised of claims; `Trial.prudent_run` — the promise holds.
* `Trial.claims_prudently` — it holds, and a row that nobody but a compaction takes away is read
  after the claim.
-/

namespace RevisionLog

open Store Watcher

namespace Scene

/-! ## What a suspicion rests on -/

/-- Whether a fetch read or claimed anything, and has not failed. -/
def isFine : List Attempt → Bool
  | [] => false
  | last :: _ => last.isFine

/-- The last attempt of the last fetch that did not fail. Fetches in which nothing was read
are none. -/
def lastFine? (pages : List (List Attempt)) : Option Attempt := (pages.find? isFine).bind List.head?

/-- Every claim on the page of a fetch comes right after the first read of that fetch, which found
the id next to its position missing below a greater one; and so did the last attempt of the last
fetch before it that did not fail. -/
def JustifiedOn (page : List Attempt) (older : List (List Attempt)) : Prop :=
  ∀ later id log answer after earlier, page = later ++ .claim id log answer after :: earlier →
    (∃ log rows, earlier = [.read (id - 1) log (.ok rows)] ∧ log.Lacks id) ∧
      ∃ last, lastFine? older = some last ∧ last.Misses id

/-- All claims are justified. -/
def Justified (s : Scene) : Prop := ∀ newer page older, s.pages = newer ++ page :: older →
    JustifiedOn page older

/-- All claims are justified. The id that is suspected is behind the watcher, or it is the next one,
and the last attempt of the last fetch that did not fail found it missing. -/
structure Watchful (suspect : Option Int) (position : Int) (s : Scene) : Prop where
  justified : s.Justified
  suspects : ∀ id, suspect = some id →
    id ≤ position ∨ id = position + 1 ∧ ∃ last, lastFine? s.pages = some last ∧ last.Misses id

variable {s s' : Scene} {page page' : List Attempt} {older : List (List Attempt)} {batch fuel : Nat}
  {w w' : Watcher}

theorem justified_turnPage (h : s.Justified) : s.turnPage.Justified := by
  intro newer page older hpages
  rcases newer with _ | ⟨first, newer⟩
  · obtain ⟨rfl, rfl⟩ := List.cons.inj hpages
    intro later id log answer after earlier hpage
    simp at hpage
  · exact h newer page older (List.cons.inj hpages).2

/-- An attempt leaves all claims justified, if those on its page are. -/
theorem justified_cons (h : s.Justified) (hpages : s.pages = page :: older) {attempt : Attempt}
    (hpages' : s'.pages = (attempt :: page) :: older)
    (hattempt : JustifiedOn (attempt :: page) older) :
    s'.Justified := by
  intro newer page' older' hsplit
  rw [hpages'] at hsplit
  rcases newer with _ | ⟨first, newer⟩
  · obtain ⟨rfl, rfl⟩ := List.cons.inj hsplit
    exact hattempt
  · exact h (page :: newer) page' older' (by rw [hpages, (List.cons.inj hsplit).2]; rfl)

theorem justifiedOn_read (h : JustifiedOn page older) (position : Int) (log : Log)
    (answer : Except Error (List Entry)) :
    JustifiedOn (.read position log answer :: page) older := by
  intro later id log' answer' after earlier hpage
  rcases later with _ | ⟨first, later⟩
  · cases hpage
  · exact h later id log' answer' after earlier (List.cons.inj hpage).2

theorem justifiedOn_claim {id : Int} {log : Log} (rows : List Entry) (hlacks : log.Lacks id)
    (hlast : ∃ last, lastFine? older = some last ∧ last.Misses id) (log' : Log)
    (answer : Except Error Unit)
    (after : Log) :
    JustifiedOn [.claim id log' answer after, .read (id - 1) log (.ok rows)] older := by
  intro later id' log'' answer' after' earlier hpage
  rcases later with _ | ⟨first, _ | ⟨second, later⟩⟩
  · cases hpage
    exact ⟨⟨log, rows, rfl, hlacks⟩, hlast⟩
  · cases hpage
  · simp at hpage

/-- The last attempt of a page that has not failed. -/
theorem lastFine?_cons_of_isFine {attempt : Attempt} (hfine : attempt.isFine = true) :
    lastFine? ((attempt :: page) :: older) = some attempt := by
  rw [lastFine?, List.find?_cons_of_pos (by exact hfine)]
  rfl

/-- A page that failed, or that is empty, is passed over. -/
theorem lastFine?_cons_of_not_isFine (hfails : isFine page = false) :
    lastFine? (page :: older) = lastFine? older := by
  rw [lastFine?, List.find?_cons_of_neg (by simp [hfails]), lastFine?]

/-- A fetch is under way. What is suspected is behind the watcher, or it is the next id, and this
fetch has not read anything yet: a later read comes after placeholders, and they have left behind
what was suspected before. -/
structure Begun (older : List (List Attempt)) (page : List Attempt) (w : Watcher) (s : Scene) :
    Prop where
  justified : s.Justified
  pages : s.pages = page :: older
  suspects : ∀ id, w.suspect = some id →
    id ≤ w.position ∨ id = w.position + 1 ∧ page = [] ∧ ∃ last, lastFine? older = some last ∧
    last.Misses id

namespace Begun

variable {s₁ s₂ : Scene} {w₁ : Watcher} {rows : List Entry}

/-- Where the fetch ends before it has read anything, what was suspected rests on what it rested on
before. -/
theorem watchful (h : Begun older page w s) (hjustified : s₁.Justified)
    (hpages : s₁.pages = page' :: older) (hfails : page = [] → isFine page' = false) :
    Watchful w.suspect w.position s₁ := by
  refine ⟨hjustified, fun id hid => (h.suspects id hid).imp_right ?_⟩
  rintro ⟨hnext, hempty, hlast⟩
  rw [hpages, lastFine?_cons_of_not_isFine (hfails hempty)]
  exact ⟨hnext, hlast⟩

/-- A read is on the page. -/
theorem read (h : Begun older page w s) {answer : Except Error (List Entry)}
    (hread : (source batch).read w.position s = (answer, s₁)) :
    s₁.Justified ∧ s₁.pages = (.read w.position s.disturb.2.log answer :: page) :: older := by
  obtain ⟨hnoted, -⟩ := of_read hread
  have hpages : s₁.pages = (.read w.position s.disturb.2.log answer :: page) :: older := by
    rw [hnoted]
    exact pages_note (by rw [pages_disturb, h.pages]) _
  exact ⟨justified_cons h.justified h.pages hpages
    (justifiedOn_read (h.justified [] page older h.pages) _ _ _), hpages⟩

/-- A missing id is missing below a greater one. -/
theorem judged (hread : (source batch).read w.position s = (.ok rows, s₁)) {verdict : Verdict}
    (hjudge : w.judge rows = (verdict, w₁)) :
    w.position ≤ w₁.position ∧ ∃ taken missing, Judged w w₁ taken missing verdict ∧
      (missing = some (w₁.position + 1) → s.disturb.2.log.Lacks (w₁.position + 1)) := by
  obtain ⟨-, hanswer⟩ := of_read hread
  obtain ⟨hposition, -, hverdict⟩ := of_judge hjudge
  refine ⟨?_, _, _, hverdict, ?_⟩
  · rw [hposition]
    exact le_absorb w.position rows
  · intro hmissing
    rcases habsorb : absorb w.position rows with ⟨reached, taken, missing⟩
    rw [habsorb] at hmissing
    obtain rfl : missing = some (w₁.position + 1) := hmissing
    exact (Log.lacks_of_absorb (of_outcome_eq_ok hanswer.symm) habsorb).2

/-- A fetch that delivers leaves a suspicion only of what its last read found missing. -/
theorem delivered (h : Begun older page w s)
    (hread : (source batch).read w.position s = (.ok rows, s₁)) {taken : List Entry}
    (hjudge : w.judge rows = (.deliver taken, w₁)) : Watchful w₁.suspect w₁.position s₁ := by
  obtain ⟨hjustified, hpages⟩ := h.read hread
  obtain ⟨hle, taken', missing, hverdict, hlacks⟩ := judged hread hjudge
  refine ⟨hjustified, fun id hid => ?_⟩
  cases hverdict with
  | miss hmissing hnew hsuspect =>
    obtain rfl := Option.some.inj (hsuspect.symm.trans hid)
    rw [hpages, lastFine?_cons_of_isFine rfl]
    exact Or.inr ⟨rfl, _, rfl, by omega, hlacks hmissing⟩
  | all hmissing hsome hnone =>
    rw [hnone] at hid
    cases hid

/-- Placeholders leave behind what was suspected. -/
theorem again (h : Begun older page w s) (hread : (source batch).read w.position s = (.ok rows, s₁))
    (hjudge : w.judge rows = (.again, w₁)) :
    Begun older (.read w.position s.disturb.2.log (.ok rows) :: page) w₁ s₁ := by
  obtain ⟨hjustified, hpages⟩ := h.read hread
  obtain ⟨-, taken, missing, hverdict, -⟩ := judged hread hjudge
  refine ⟨hjustified, hpages, fun id hid => Or.inl ?_⟩
  cases hverdict with
  | again hmissing hnothing hlt hsuspect =>
    rw [hsuspect] at hid
    rcases h.suspects id hid with hbehind | ⟨hnext, -⟩ <;> omega

/-- **A claim is justified.** What is suspected is the next id, so nothing has been passed over, and
this is the first read of the fetch. -/
theorem claimed (h : Begun older page w s)
    (hread : (source batch).read w.position s = (.ok rows, s₁)) {id : Int}
    (hjudge : w.judge rows = (.claim id, w₁)) {answer : Except Error Unit}
    (hclaim : (source batch).claim id s₁ = (answer, s₂)) :
    w₁.suspect = none ∧ ∃ page, Begun older page w₁ s₂ := by
  obtain ⟨hjustified, hpages⟩ := h.read hread
  obtain ⟨hle, taken, missing, hverdict, hlacks⟩ := judged hread hjudge
  cases hverdict with
  | claim hmissing hnothing hsuspect hnone =>
    refine ⟨hnone, ?_⟩
    rcases h.suspects _ hsuspect with hbehind | ⟨hnext, rfl, hlast⟩
    · omega
    · obtain ⟨left, hleft, -⟩ := of_claim hclaim
      have hpages' : s₂.pages = [.claim (w₁.position + 1) s₁.disturb.2.log answer left,
          .read w.position s.disturb.2.log (.ok rows)] :: older := by
        rw [hleft]
        exact pages_note (by rw [← hpages]; exact s₁.pages_disturb) _
      have hclaimed := justifiedOn_claim rows (hlacks hmissing) hlast s₁.disturb.2.log answer left
      have hstood : w₁.position + 1 - 1 = w.position := by omega
      rw [hstood] at hclaimed
      refine ⟨_, justified_cons hjustified hpages hpages' hclaimed, hpages', fun id hid => ?_⟩
      rw [hnone] at hid
      cases hid

/-- **A fetch keeps what suspicions rest on.** -/
theorem fetch (h : Begun older page w s) {outcome : Except Error (List Entry)}
    (hfetch : Fetched (source batch) fuel w s outcome w' s') :
    Watchful w'.suspect w'.position s' := by
  induction hfetch generalizing page with
  | spent => exact h.watchful h.justified h.pages fun hempty => by rw [hempty]; rfl
  | unread hread =>
    obtain ⟨hjustified, hpages⟩ := h.read hread
    exact h.watchful hjustified hpages fun _ => rfl
  | delivered hread hjudge => exact h.delivered hread hjudge
  | again hread hjudge hrest ih => exact ih (h.again hread hjudge)
  | claimed hread hjudge hclaim hsettled hrest ih =>
    obtain ⟨-, page, hclaimed⟩ := h.claimed hread hjudge hclaim
    exact ih hclaimed
  | unclaimed hread hjudge hclaim =>
    obtain ⟨hnone, page, hclaimed⟩ := h.claimed hread hjudge hclaim
    refine ⟨hclaimed.justified, fun id hid => ?_⟩
    rw [hnone] at hid
    cases hid

end Begun

/-- A watcher keeps an account of its attempts, and watches what its suspicions rest on. -/
theorem keeps_watchful (batch : Nat) (bound : Log → Nat) :
    Keeps (source batch) pause (bounded bound) (fun s => ∃ older, s.pages = [] :: older)
      fun _ suspect position es s => Account batch position es s ∧ Watchful suspect position s := by
  refine Keeps.regardless ?readies ?fetches ?pauses
  case readies =>
    intro suspect position es s h
    have hsame : lastFine? (bounded bound s).2.pages = lastFine? s.pages :=
      lastFine?_cons_of_not_isFine rfl
    refine ⟨⟨h.1.of_attempts_eq s.attempts_turnPage, justified_turnPage h.2.justified, ?_⟩, s.pages,
      rfl⟩
    rw [hsame]
    exact h.2.suspects
  case fetches =>
    intro fuel w es s outcome w' s' h hready hfetch
    obtain ⟨older, hpages⟩ := hready
    have hbegun : Begun older [] w s := by
      refine ⟨h.2.justified, hpages, fun id hid => (h.2.suspects id hid).imp_right ?_⟩
      rintro ⟨hnext, hlast⟩
      rw [hpages, lastFine?_cons_of_not_isFine rfl] at hlast
      exact ⟨hnext, rfl, hlast⟩
    exact ⟨h.1.fetch hfetch, hbegun.fetch hfetch⟩
  case pauses =>
    intro suspect position es s h
    unfold pause
    split
    · exact h
    · exact ⟨h.1.of_attempts_eq rfl, h.2.justified, h.2.suspects⟩

/-! ## Rows that are there when their id is claimed -/

/-- A claim of an id, the log that it found, and the next read that went well: its position, the log
that it found, and its answer. -/
def ReadAfter (s : Scene) (id : Int) (log : Log) (position : Int) (found : Log)
    (rows : List Entry) : Prop :=
  ∃ later between answer after earlier,
    s.attempts = later ++ .read position found (.ok rows) ::
      (between ++ .claim id log answer after :: earlier) ∧
      ∀ attempt ∈ between, attempt.isReading = false

variable {position : Int} {es : List Entry} {id : Int} {log found : Log} {rows : List Entry}

/-- After a claim a watcher stays where it is until it has read again. -/
theorem position_of_path {attempt : Attempt} {between earlier : List Attempt}
    {answer : Except Error Unit} {after : Log}
    (hpath : (attempt :: (between ++ .claim id log answer after :: earlier)).IsChain
      fun later earlier => later.position = earlier.reached)
    (hbetween : ∀ attempt ∈ between, attempt.isReading = false) : attempt.position = id - 1 := by
  induction between generalizing attempt with
  | nil => exact (List.isChain_cons_cons.1 hpath).1
  | cons next between ih =>
    obtain ⟨hstep, hrest⟩ := List.isChain_cons_cons.1 hpath
    have hnext := ih hrest fun a ha => hbetween a (List.mem_cons_of_mem next ha)
    have hstays : next.reached = next.position := by
      have hnot := hbetween next List.mem_cons_self
      rcases next with ⟨p, log', e | rows⟩ | ⟨id', log', answer', after'⟩
      · rfl
      · cases hnot
      · rfl
    rw [hstep, hstays, hnext]

theorem mem_shownBy {attempts : List Attempt} {attempt : Attempt} (hmem : attempt ∈ attempts)
    {e : Entry} (he : e ∈ attempt.shown) : e ∈ shownBy attempts := by
  induction attempts with
  | nil => cases hmem
  | cons last earlier ih =>
    rw [shownBy, List.mem_append]
    rcases List.mem_cons.1 hmem with rfl | hmem
    · exact Or.inr he
    · exact Or.inl (ih hmem)

/-- **The row of an id is read right after the claim of the id**, if it is there, and it is shown
unless it is a placeholder. -/
theorem Account.of_readAfter (h : Account batch position es s) {before : Int}
    (hread : s.ReadAfter id log before found rows) :
    before = id - 1 ∧ (∃ watermark, Store.compactedTo found = .ok watermark ∧ watermark ≤ before) ∧
      ∀ r ∈ found.rows, r.id = id →
        ∃ e rest, rows = e :: rest ∧ r.entry = .ok e ∧ (e.isGap = false → e ∈ es) := by
  obtain ⟨later, between, answer, after, earlier, hattempts, hbetween⟩ := hread
  have hpath := h.path
  rw [hattempts] at hpath
  have hbefore := position_of_path (List.isChain_append.1 hpath).2.1 hbetween
  obtain rfl : before = id - 1 := hbefore
  have hmem : .read (id - 1) found (.ok rows) ∈ s.attempts := by simp [hattempts]
  have hsince := h.reads _ _ _ hmem
  refine ⟨rfl, (Log.of_since_eq_ok hsince).1, ?_⟩
  intro r hr hid
  obtain ⟨e, rest, rfl, he⟩ := Log.since_cons_of_mem hsince (by omega) hr (by omega)
  refine ⟨e, rest, rfl, he, ?_⟩
  intro hgap
  have hrevision : e.revision = id - 1 + 1 := by
    rw [(Row.of_entry_eq_ok he).1]
    omega
  rw [h.shown]
  refine mem_shownBy hmem ?_
  rw [Attempt.shown, absorb, if_neg (not_not.2 hrevision), hgap]
  exact List.mem_cons_self

end Scene

/-! ## Lawful disturbances -/

/-- What others do leaves a tidy log that is a later state: rows are taken away only by compaction.
So do all clients of a store. -/
def Disturbance.IsLawful (d : Disturbance) : Prop :=
  ∀ log : Log, log.Tidy → (d.change log).Tidy ∧ log.Persists (d.change log)

theorem Disturbance.isLawful_act (a : Act) (failure : Option Error) :
    IsLawful { change := a.on, failure } :=
  fun _ htidy => htidy.act a

namespace Scene

/-- The logs that a watcher found and left are states of one log. -/
structure Persistent (s : Scene) : Prop where
  lawful : ∀ d ∈ s.disturbances, d.IsLawful
  tidy : s.log.Tidy
  found : ∀ attempt ∈ s.attempts, attempt.before.Tidy
  left : ∀ attempt ∈ s.attempts, attempt.after.Persists s.log
  ordered : s.attempts.Pairwise fun later earlier => earlier.after.Persists later.before

namespace Persistent

variable {s s' : Scene} {batch : Nat}

theorem disturb (h : s.Persistent) : s.disturb.2.Persistent := by
  rcases hrest : s.disturbances with _ | ⟨d, rest⟩
  · have hsame : s.disturb.2 = s := by rw [Scene.disturb, hrest]
    rw [hsame]
    exact h
  · have hnext : s.disturb.2 = { s with log := d.change s.log, disturbances := rest } := by
      rw [Scene.disturb, hrest]
    obtain ⟨htidy, hpersists⟩ := h.lawful d (by rw [hrest]; exact List.mem_cons_self) s.log h.tidy
    rw [hnext]
    exact
      { lawful := fun d' hd' => h.lawful d' (by rw [hrest]; exact List.mem_cons_of_mem d hd')
        tidy := htidy
        found := h.found
        left := fun attempt hattempt => (h.left attempt hattempt).trans hpersists
        ordered := h.ordered }

/-- One more attempt, which leaves a later state of the log that it found. -/
theorem note (h : s.Persistent) (attempt : Attempt) (hbefore : attempt.before = s.log)
    (htidy : attempt.after.Tidy) (hpersists : s.log.Persists attempt.after) :
    (Scene.note { s with log := attempt.after } attempt).Persistent where
  lawful := by
    rw [disturbances_note]
    exact h.lawful
  tidy := by
    rw [log_note]
    exact htidy
  found := by
    rw [attempts_note]
    exact List.forall_mem_cons.2 ⟨hbefore ▸ h.tidy, h.found⟩
  left := by
    rw [attempts_note, log_note]
    exact List.forall_mem_cons.2 ⟨.refl _, fun a ha => (h.left a ha).trans hpersists⟩
  ordered := by
    rw [attempts_note]
    exact List.pairwise_cons.2 ⟨fun a ha => hbefore ▸ h.left a ha, h.ordered⟩

theorem read (h : s.Persistent) (batch : Nat) (position : Int) :
    (Scene.read batch position s).2.Persistent := by
  rcases hread : Scene.read batch position s with ⟨answer, s'⟩
  obtain ⟨rfl, -⟩ := of_read hread
  exact h.disturb.note (.read position s.disturb.2.log answer) rfl h.disturb.tidy (.refl _)

theorem claim (h : s.Persistent) (id : Int) : (Scene.claim id s).2.Persistent := by
  rcases hclaim : Scene.claim id s with ⟨answer, s'⟩
  obtain ⟨after, rfl, hafter⟩ := of_claim hclaim
  rcases hafter with ⟨-, hfill⟩ | ⟨-, rfl⟩
  · obtain ⟨htidy, hpersists⟩ := h.disturb.tidy.fill (of_outcome_eq_ok hfill)
    exact h.disturb.note (.claim id s.disturb.2.log answer after) rfl htidy hpersists
  · exact h.disturb.note (.claim id s.disturb.2.log answer s.disturb.2.log) rfl h.disturb.tidy
      (.refl _)

/-- What is still to happen makes no difference, as long as it is lawful. -/
theorem stage (h : s.Persistent) {p : Pulling} (hp : ∀ d ∈ p.disturbances, d.IsLawful) :
    (p.stage s).Persistent := by
  cases p with
  | poll disturbances => exact { h with lawful := hp }
  | next rounds disturbances rests => exact { h with lawful := hp }

end Persistent

theorem keeps_persistent (batch : Nat) (bound : Log → Nat) :
    Keeps (source batch) pause (bounded bound) (fun _ => True) fun _ _ _ _ s => Persistent s := by
  refine Keeps.regardless ?readies ?fetches ?pauses
  case readies =>
    intro _ _ _ s h
    exact ⟨{ h with }, trivial⟩
  case fetches =>
    intro _ _ _ s _ _ s' h _ hfetch
    exact hfetch.invariant (fun position s h => h.read batch position) (fun id s h => h.claim id) h
  case pauses =>
    intro _ _ _ s h
    unfold pause
    split
    · exact h
    · exact { h with }

end Scene

/-! ## What is promised of claims -/

namespace Trial

/-- What is promised of the claims of a watcher, whatever happens. -/
structure Prudent (t : Trial) : Prop where
  /-- an id is claimed right after the first read of a fetch that found it missing, by a watcher
  that the last fetch before had shown the same; so an id is never claimed in the fetch that first
  finds it missing -/
  justified : t.scene.Justified
  /-- a claim changes nothing but its id -/
  writes : ∀ id log answer after, .claim id log answer after ∈ t.scene.attempts →
    after = log ∨ ∃ fresh, after = log.put (gapRow id) fresh
  /-- and not even that if a row stands there -/
  spares : ∀ id log answer after, .claim id log answer after ∈ t.scene.attempts →
    (∃ r ∈ log.rows, r.id = id) → after = log
  /-- unless the watermark rises above the position, the next read begins with the row that stands
  at the id then -/
  reads : ∀ id log position found rows, t.scene.ReadAfter id log position found rows →
    position = id - 1 ∧
    (∃ watermark, Store.compactedTo found = .ok watermark ∧ watermark ≤ position) ∧
      ∀ r ∈ found.rows, r.id = id → ∃ e rest, rows = e :: rest ∧ r.entry = .ok e ∧
        (e.isGap = false → e ∈ t.delivered ++ t.watcher.pending)

variable {batch : Nat} {bound : Log → Nat} {log : Log} {revision : Int} {pulls : List Pulling}

/-- **Whatever happens, the promise holds.** -/
theorem prudent_run (log : Log) (revision : Int) (batch : Nat) (bound : Log → Nat)
    (pulls : List Pulling) : ((start log revision).run batch bound pulls).Prudent := by
  have hstart : Scene.Watchful none (max revision 0) { log } := by
    refine ⟨fun newer page older hpages => ?_, fun id hid => by cases hid⟩
    simp at hpages
  obtain ⟨-, haccount, hwatchful⟩ :=
    keeps_run (Scene.keeps_watchful batch bound) pulls
      (fun p _ {_ _ _ _ _} h => by
        cases p <;> exact ⟨h.1.of_attempts_eq rfl, h.2.justified, h.2.suspects⟩)
      (of_start log revision ⟨Scene.Account.start log batch _, hstart⟩)
  refine
    { justified := hwatchful.justified
      writes := ?writes
      spares := ?spares
      reads := fun id log position found rows hread => haccount.of_readAfter hread }
  case writes =>
    intro id log answer after hmem
    rcases haccount.claims id log answer after hmem with ⟨-, hfill⟩ | hsame
    · exact Or.inr (Log.fill_eq_ok (ask_eq_ok.1 hfill)).2
    · exact Or.inl hsame
  case spares =>
    intro id log answer after hmem htaken
    rcases haccount.claims id log answer after hmem with ⟨-, hfill⟩ | hsame
    · obtain ⟨-, fresh, -⟩ := Log.fill_eq_ok (ask_eq_ok.1 hfill)
      obtain ⟨r, hr, hid⟩ := htaken
      exact absurd hid (fresh r hr)
    · exact hsame

/-- **Claims are safe.** Whatever others do to a log between the transactions of a watcher, and
whatever fails, the watcher claims an id only where it was missing below a greater one in two
fetches that followed each other, and a claim changes no row that is there. If others take rows away
only by compaction, the row that stands at an id when the id is claimed is what the watcher reads
next, if it ever reads again, and what it hands out unless it is a placeholder. -/
theorem claims_prudently (log : Log) (revision : Int) (batch : Nat) (bound : Log → Nat)
    (pulls : List Pulling) :
    ((start log revision).run batch bound pulls).Prudent ∧
    (log.Tidy → (∀ p ∈ pulls, ∀ d ∈ p.disturbances, d.IsLawful) →
      ∀ id claimed position found rows,
        ((start log revision).run batch bound pulls).scene.ReadAfter id claimed position found
          rows →
        ∀ e ∈ claimed.entries, e.revision = id → ∃ rest, rows = e :: rest ∧
          (e.isGap = false → e ∈ ((start log revision).run batch bound pulls).delivered ++
            ((start log revision).run batch bound pulls).watcher.pending)) := by
  have hprudent := prudent_run log revision batch bound pulls
  refine ⟨hprudent, ?_⟩
  intro htidy hlawful id claimed position found rows hread e he hid
  obtain ⟨-, hpersistent⟩ :=
    keeps_run (Scene.keeps_persistent batch bound) pulls
      (fun p hp {_ _ _ _ _} h => Scene.Persistent.stage h (hlawful p hp))
      (of_start log revision
        { lawful := fun d hd => by cases hd
          tidy := htidy
          found := fun a ha => by cases ha
          left := fun a ha => by cases ha
          ordered := .nil })
  generalize (start log revision).run batch bound pulls = t at *
  obtain ⟨rfl, ⟨watermark, hwatermark, hle⟩, hreads⟩ :=
    hprudent.reads id claimed position found rows hread
  obtain ⟨later, between, answer, after, earlier, hattempts, -⟩ := hread
  obtain ⟨r, hr, rfl⟩ := Log.mem_entries.1 he
  -- the claim has left the row where it was
  have hsame : after = claimed :=
    hprudent.spares id claimed answer after (by simp [hattempts]) ⟨r, hr, hid⟩
  have hpersists : claimed.Persists found := by
    have hordered := hpersistent.ordered
    rw [hattempts] at hordered
    have hread := (List.pairwise_append.1 hordered).2.1
    have hclaim := (List.pairwise_cons.1 hread).1 (.claim id claimed answer after) (by simp)
    rw [← hsame]
    exact hclaim
  have hfound : found.Tidy :=
    hpersistent.found (.read (id - 1) found (.ok rows)) (by simp [hattempts])
  obtain rfl : found.floor = watermark :=
    Except.ok.inj (hfound.store_compactedTo.symm.trans hwatermark)
  have hrevision : r.toEntry.revision = r.id := rfl
  obtain ⟨q, hq, hqr⟩ := Log.mem_entries.1 (hpersists.kept _ he (by omega))
  have hqid : q.id = id := by rw [← hid, ← hqr, Row.revision_toEntry]
  obtain ⟨e, rest, rfl, hentry, hshown⟩ := hreads q hq hqid
  obtain rfl : q.toEntry = e := Except.ok.inj ((hfound.plain q hq).entry_eq.symm.trans hentry)
  rw [← hqr]
  exact ⟨rest, rfl, hshown⟩

/-- Two rows stand around a missing id. The second poll claims the id, but its row has just
appeared, and is read and handed out before the one behind it. -/
theorem exists_claims_prudently :
    ∃ (log claimed found : Log) (pulls : List Pulling) (t : Trial) (position : Int)
    (rows : List Entry), log.Tidy ∧ (∀ p ∈ pulls, ∀ d ∈ p.disturbances, d.IsLawful) ∧
    t = (start log 0).run 2 (fun _ => 4) pulls ∧ t.Prudent ∧
    t.scene.ReadAfter 2 claimed position found rows ∧
    (t.delivered.map Entry.revision, t.watcher.cursor) = ([1, 2, 3], 3) ∧
    ∃ e rest, e ∈ claimed.entries ∧ e.revision = 2 ∧ rows = e :: rest ∧
      e ∈ t.delivered ++ t.watcher.pending := by
  let log := (World.act { log := { indexing := .linkFirst } }
    [.commit ⟨1, "a", true, false, 1, 0, 0, [1], []⟩,
      .commit ⟨3, "c", true, false, 3, 0, 0, [3], []⟩]).log
  let pulls : List Pulling :=
    [.poll [], .poll [{}, { change := (Act.commit ⟨2, "b", true, false, 2, 0, 0, [2], []⟩).on }]]
  have htidy : log.Tidy :=
    ((World.lasting_start (Log.sound_empty .linkFirst).toTidy).act _).lasting.tidy _
      List.mem_cons_self
  have hlawful : ∀ p ∈ pulls, ∀ d ∈ p.disturbances, d.IsLawful := by
    intro p hp d hd
    simp only [pulls, List.mem_cons, List.not_mem_nil, or_false] at hp
    rcases hp with rfl | rfl
    · cases hd
    · simp only [Pulling.disturbances, List.mem_cons, List.not_mem_nil, or_false] at hd
      rcases hd with rfl | rfl
      · exact fun log h => ⟨h, .refl log⟩
      · exact Disturbance.isLawful_act _ _
  obtain ⟨hprudent, hreads⟩ := claims_prudently log 0 2 (fun _ => 4) pulls
  have hread : ∃ claimed position found rows,
      ((start log 0).run 2 (fun _ => 4) pulls).scene.ReadAfter 2 claimed position found rows ∧
        ∃ e ∈ claimed.entries, e.revision = 2 ∧ e.isGap = false := by
    have hlast :
        (((start log 0).run 2 (fun _ => 4) pulls).scene.attempts.take 2).map (fun attempt =>
          (attempt.isReading, attempt.isFine, attempt.position,
            decide (∃ e ∈ attempt.before.entries, e.revision = 2 ∧ e.isGap = false))) =
        [(true, true, 1, true), (false, true, 1, true)] := by decide +kernel
    rcases hattempts : ((start log 0).run 2 (fun _ => 4) pulls).scene.attempts with
      _ | ⟨last, _ | ⟨first, earlier⟩⟩ <;> rw [hattempts] at hlast
    · simp at hlast
    · simp at hlast
    · obtain ⟨hreads, hclaims⟩ : _ ∧ _ := List.cons.inj hlast
      simp only [Prod.mk.injEq, decide_eq_true_eq] at hreads
      have hclaims := List.cons.inj hclaims
      simp only [Prod.mk.injEq, decide_eq_true_eq] at hclaims
      obtain ⟨⟨hnot, hfine, hposition, hstands⟩, -⟩ := hclaims
      rcases last with ⟨position, found, e | rows⟩ | _
      · cases hreads.1
      · rcases first with ⟨_, _, e | _⟩ | ⟨id, claimed, answer, after⟩
        · cases hfine
        · cases hnot
        · obtain rfl : id = 2 := by
            dsimp only [Attempt.position] at hposition
            omega
          exact ⟨claimed, position, found, rows,
            ⟨[], [], answer, after, earlier, hattempts, by simp⟩, hstands⟩
      · cases hreads.1
  obtain ⟨claimed, position, found, rows, hread, e, he, hrev, hgap⟩ := hread
  obtain ⟨rest, hrows, hshown⟩ := hreads htidy hlawful 2 claimed position found rows hread e he hrev
  exact ⟨log, claimed, found, pulls, _, position, rows, htidy, hlawful, rfl, hprudent,
    hread, by decide +kernel, e, rest, he, hrev, hrows, hshown hgap⟩

end Trial

end RevisionLog
