import RevisionLog.Proofs.Interleaving

/-!
# What a watcher has read

A watcher that runs in a world walks over the revisions one by one. What it has handed out and what
it holds back are together a trail of rows it has read, without a gap, from where it started to its
position.

* `Trail` — entries that follow each other without a gap.
* `Watcher.exists_trail_of_judge` — what a read makes of a watcher is a step along a trail.
* `Track` — where a watcher came from, what it handed out and what it holds back; `Track.fetch`,
  `poll`, `round` and `next` keep it.
-/

namespace RevisionLog

open Watcher

/-! ## Trails -/

/-- Entries that follow each other without a gap from one revision to another. -/
def Trail : Int → Int → List Entry → Prop
  | start, stop, [] => start = stop
  | start, stop, e :: es => e.revision = start + 1 ∧ Trail e.revision stop es

namespace Trail

variable {a b c : Int} {es fs : List Entry}

theorem append (hes : Trail a b es) (hfs : Trail b c fs) : Trail a c (es ++ fs) := by
  induction es generalizing a with
  | nil =>
    obtain rfl : a = b := hes
    exact hfs
  | cons e es ih => exact ⟨hes.1, ih hes.2⟩

theorem of_append (h : Trail a c (es ++ fs)) : ∃ b, Trail a b es ∧ Trail b c fs := by
  induction es generalizing a with
  | nil => exact ⟨a, rfl, h⟩
  | cons e es ih =>
    obtain ⟨b, hes, hfs⟩ := ih h.2
    exact ⟨b, ⟨h.1, hes⟩, hfs⟩

theorem concat {e : Entry} (hes : Trail a b es) (he : e.revision = b + 1) :
    Trail a e.revision (es ++ [e]) :=
  hes.append ⟨he, rfl⟩

theorem le (h : Trail a b es) : a ≤ b := by
  induction es generalizing a with
  | nil => exact Int.le_of_eq h
  | cons e es ih =>
    have hrest := ih h.2
    have hstep := h.1
    omega

theorem bounds (h : Trail a b es) {e : Entry} (he : e ∈ es) : a < e.revision ∧ e.revision ≤ b := by
  induction es generalizing a with
  | nil => cases he
  | cons f es ih =>
    have hstep := h.1
    have hrest := h.2.le
    rcases List.mem_cons.1 he with rfl | he
    · omega
    · have htail := ih h.2 he
      omega

/-- A trail passes over no revision. -/
theorem exists_mem (h : Trail a b es) {id : Int} (hlt : a < id) (hle : id ≤ b) :
    ∃ e ∈ es, e.revision = id := by
  induction es generalizing a with
  | nil =>
    obtain rfl : a = b := h
    omega
  | cons e es ih =>
    by_cases hid : e.revision = id
    · exact ⟨e, List.mem_cons_self, hid⟩
    · have hstep := h.1
      obtain ⟨f, hf, hrev⟩ := ih h.2 (by omega)
      exact ⟨f, List.mem_cons_of_mem e hf, hrev⟩

theorem pairwise (h : Trail a b es) : es.Pairwise (·.revision < ·.revision) := by
  induction es generalizing a with
  | nil => exact .nil
  | cons e es ih => exact List.pairwise_cons.2 ⟨fun f hf => (h.2.bounds hf).1, ih h.2⟩

end Trail

/-! ## Reads -/

namespace Watcher

theorem withPending_eq {w : Watcher} {es : List Entry} (h : w.pending = es) :
    { w with pending := es } = w := by
  rw [← h]

/-- A claim that is not in order failed. -/
theorem error_of_settled {answer : Except Error Unit} {e : Error} (h : settled answer = some e) :
    answer = .error e := by
  unfold settled at h
  split at h <;> cases h
  rfl

/-- Of entries, those that are handed out. -/
def shown (es : List Entry) : List Entry := es.filter fun e => !e.isGap

@[simp] theorem shown_append (es fs : List Entry) : shown (es ++ fs) = shown es ++ shown fs :=
  List.filter_append ..

/-- The entries that a verdict delivers. -/
def Verdict.batch : Verdict → List Entry
  | deliver batch => batch
  | again => []
  | claim _ => []

/-- The entries that a pull hands out. -/
def Pull.entries : Pull → List Entry
  | entry e => [e]
  | ended => []
  | failed _ => []
  | nothing => []

/-- What a pull tells of history that is gone. -/
def Pull.tells : Pull → List (Int × Int)
  | entry _ => []
  | ended => []
  | failed e => e.compaction?.toList
  | nothing => []

theorem pending_eq_nil_of_pop {w : Watcher} (h : w.pop = none) : w.pending = [] := by
  rcases hpending : w.pending with _ | ⟨e, rest⟩
  · rfl
  · rw [pop, hpending] at h
    cases h

/-- What is taken of rows is a trail, of which all but placeholders are handed out. It ends with the
rows, or before one that does not follow it. -/
theorem exists_split_of_absorb {position reached : Int} {rows batch : List Entry}
    {missing : Option Int} (h : absorb position rows = (reached, batch, missing)) :
    ∃ es rest, rows = es ++ rest ∧ Trail position reached es ∧ shown es = batch ∧
      (missing = none ∧ rest = [] ∨
        missing = some (reached + 1) ∧ ∃ e rest', rest = e :: rest' ∧
        e.revision ≠ reached + 1) := by
  induction rows generalizing position batch with
  | nil =>
    cases h
    exact ⟨[], [], rfl, rfl, rfl, Or.inl ⟨rfl, rfl⟩⟩
  | cons e rows ih =>
    rw [absorb] at h
    split at h
    · next hgap =>
      cases h
      exact ⟨[], e :: rows, rfl, rfl, rfl, Or.inr ⟨rfl, e, rows, rfl, hgap⟩⟩
    · next hnext =>
      rcases hrest : absorb e.revision rows with ⟨reached', batch', missing'⟩
      rw [hrest] at h
      cases h
      obtain ⟨es, rest, rfl, htrail, hshown, hend⟩ := ih hrest
      refine ⟨e :: es, rest, rfl, ⟨not_not.1 hnext, htrail⟩, ?_, hend⟩
      rw [shown, List.filter_cons, ← shown, hshown]
      cases e.isGap <;> rfl

theorem exists_trail_of_absorb {position reached : Int} {rows batch : List Entry}
    {missing : Option Int} (h : absorb position rows = (reached, batch, missing)) :
    ∃ es, (∀ e ∈ es, e ∈ rows) ∧ Trail position reached es ∧ shown es = batch := by
  obtain ⟨es, rest, rfl, htrail, hshown, -⟩ := exists_split_of_absorb h
  exact ⟨es, fun e he => List.mem_append_left _ he, htrail, hshown⟩

/-- **A read is a step along a trail.** Nothing but the position moves, and what is delivered is all
of the trail but its placeholders. -/
theorem exists_trail_of_judge {w w' : Watcher} {rows : List Entry} {verdict : Verdict}
    (h : w.judge rows = (verdict, w')) :
    ∃ es, (∀ e ∈ es, e ∈ rows) ∧ Trail w.position w'.position es ∧ shown es = verdict.batch ∧
      w'.cursor = w.cursor ∧ w'.pending = w.pending ∧ w'.done = w.done := by
  rcases habsorb : absorb w.position rows with ⟨reached, batch, missing⟩
  obtain ⟨es, hmem, htrail, hshown⟩ := exists_trail_of_absorb habsorb
  rw [judge, habsorb] at h
  dsimp only at h
  refine ⟨es, hmem, ?_⟩
  -- where the batch is empty, all that was passed over are placeholders
  split at h <;> split at h <;> cases h
  · next hempty => exact ⟨htrail, by rw [hshown, List.isEmpty_iff.1 hempty.1]; rfl, rfl, rfl, rfl⟩
  · exact ⟨htrail, hshown, rfl, rfl, rfl⟩
  · next hempty => exact ⟨htrail, by rw [hshown, List.isEmpty_iff.1 hempty.1]; rfl, rfl, rfl, rfl⟩
  · exact ⟨htrail, hshown, rfl, rfl, rfl⟩

end Watcher

/-! ## Tracks -/

/-- A watcher that started at a revision handed out what was to be shown of a trail up to its
cursor, and holds back what is to be shown of the rest up to its position, unless it has ended. It
told of history that is gone what its reads told it. -/
structure Track (start : Int) (world : World) (w : Watcher) (delivered : List Entry)
    (told : List (Int × Int)) (handed held : List Entry) : Prop where
  lasting : world.Lasting
  behind : Trail start w.cursor handed
  ahead : Trail w.cursor w.position held
  read : ∀ e ∈ handed ++ held, world.HasRead e
  delivered : delivered = shown handed
  pending : w.pending = shown held ∨ w.done = true ∧ w.pending = []
  told : told = world.readings.filterMap Reading.told?

/-- The entries that an answer gives. -/
def given : Except Error (List Entry) → List Entry
  | .ok batch => batch
  | .error _ => []

/-- What an answer tells of history that is gone. -/
def tells {α : Type} : Except Error α → List (Int × Int)
  | .ok _ => []
  | .error e => e.compaction?.toList

/-- What a read tells is what its answer tells. -/
theorem filterMap_told? (r : Reading) : [r].filterMap Reading.told? = tells r.answer := by
  rw [List.filterMap_cons, List.filterMap_nil, Reading.told?]
  rcases r.answer with e | es
  · rcases h : e.compaction? with _ | told <;> simp [tells, h]
  · rfl

/-- A fetch, one transaction after the other. -/
theorem fetch_succ {σ : Type} (source : Source (StateM σ)) (fuel : Nat) (w : Watcher) (s : σ) :
    fetch source (fuel + 1) w s =
      match source.read w.position s with
      | (.error e, s) => ((.error e, w), s)
      | (.ok rows, s) =>
        match w.judge rows with
        | (.deliver batch, w) => ((.ok batch, w), s)
        | (.again, w) => fetch source fuel w s
        | (.claim id, w) =>
          match source.claim id s with
          | (answer, s) =>
            match settled answer with
            | some e => ((.error e, w), s)
            | none => fetch source fuel w s := by
  show (source.read w.position >>= _) s = _
  rcases hread : source.read w.position s with ⟨e | rows, between⟩
  · simp only [bind, StateT.bind, hread]
    rfl
  · simp only [bind, StateT.bind, hread]
    rcases w.judge rows with ⟨batch' | _ | id, w'⟩
    · rfl
    · rfl
    · show (source.claim id >>= _) between = _
      rcases hclaim : source.claim id between with ⟨answer, between'⟩
      simp only [bind, StateT.bind, hclaim]
      rcases settled answer with _ | e
      · rfl
      · rfl

/-- A poll as its parts. -/
theorem poll_eq {σ : Type} (source : Source (StateM σ)) (fuel : Nat) (w : Watcher) (s : σ) :
    poll source fuel w s =
      if !w.pending.isEmpty then ((.ok w.pending, { w with cursor := w.position, pending := [] }),
          s)
      else if w.done then ((.ok [], w), s)
      else
        match fetch source fuel w s with
        | ((.ok batch, w), s) => ((.ok batch, { w with cursor := w.position }), s)
        | ((.error e, w), s) => ((.error e, w.fail e), s) := by
  unfold poll
  split
  · rfl
  · split
    · rfl
    · simp only [bind, StateT.bind]
      rcases fetch source fuel w s with ⟨⟨e | batch, w₁⟩, s₁⟩ <;> rfl

/-- A round as its parts. -/
theorem round_eq {σ : Type} (source : Source (StateM σ)) (fuel : Nat) (w : Watcher) (s : σ) :
    round source fuel w s =
      match w.pop with
      | some (e, w) => ((.entry e, w), s)
      | none =>
        if w.done then ((.ended, w), s)
        else
          match fetch source fuel w s with
          | ((.ok batch, w), s) =>
            match { w with pending := batch }.pop with
            | some (e, w) => ((.entry e, w), s)
            | none => ((.nothing, { w with cursor := w.position }), s)
          | ((.error e, w), s) => if e.isTerminal then ((.failed e, w.fail e), s)
              else ((.nothing, w), s) := by
  unfold Watcher.round
  rcases w.pop with _ | ⟨e, w₁⟩
  · dsimp only
    split
    · rfl
    · simp only [bind, StateT.bind]
      rcases fetch source fuel w s with ⟨⟨e | batch, w₁⟩, s₁⟩
      · dsimp only
        split <;> rfl
      · dsimp only
        generalize { w₁ with pending := batch }.pop = first
        rcases first with _ | ⟨e, w₂⟩ <;> rfl
  · rfl

/-- Waiting as its rounds. -/
theorem next_succ {σ : Type} (source : Source (StateM σ)) (pause : StateM σ Rest)
    (fuel : StateM σ Nat) (rounds : Nat) (w : Watcher) (s : σ) :
    next source pause fuel (rounds + 1) w s =
      match fuel s with
      | (n, s) =>
        match round source n w s with
        | ((.nothing, w), s) =>
          match pause s with
          | (.stopped cause, s) => ((.failed cause.toError, w.fail cause.toError), s)
          | (.abandoned, s) => ((.nothing, w), s)
          | (.over, s) => next source pause fuel rounds w s
        | pulled => pulled := by
  rcases hfuel : fuel s with ⟨n, s₀⟩
  rcases hround : round source n w s₀ with ⟨⟨pull, w₁⟩, s₁⟩
  rw [next]
  simp only [bind, StateT.bind, hfuel, hround]
  cases pull with
  | nothing =>
    show (pause >>= _) s₁ = _
    rcases hpause : pause s₁ with ⟨rest, s₂⟩
    simp only [bind, StateT.bind, hpause]
    cases rest <;> rfl
  | entry e => rfl
  | ended => rfl
  | failed e => rfl

namespace Track

variable {start : Int} {world world' : World} {w w' : Watcher} {delivered : List Entry}
  {told : List (Int × Int)}
variable {handed held batch' : List Entry} {batch fuel : Nat}

/-- The world goes on, and what the new reads tell is told. -/
theorem leads (h : Track start world w delivered told handed held) {new : List Reading}
    (hleads : world.Leads world' new) :
    Track start world' w delivered (told ++ new.filterMap Reading.told?) handed held where
  lasting := hleads.lasting
  behind := h.behind
  ahead := h.ahead
  read e he := hleads.hasRead (h.read e he)
  delivered := h.delivered
  pending := h.pending
  told := by rw [h.told, hleads.readings, List.filterMap_append]

/-- Every id up to the cursor was read, and what was read there was handed out. -/
theorem exists_read (h : Track start world w delivered told handed held) {id : Int}
    (hlt : start < id) (hle : id ≤ w.cursor) : ∃ e ∈ handed, e.revision = id ∧ world.HasRead e := by
  obtain ⟨e, he, hrev⟩ := h.behind.exists_mem hlt hle
  exact ⟨e, he, hrev, h.read e (List.mem_append_left _ he)⟩

/-- Whatever happens, the row that was read under an id up to the cursor stays there, as long as it
is above the floor. -/
theorem taken (h : Track start world w delivered told handed held) (acts : List Act) {id : Int}
    (hlt : start < id) (hle : id ≤ w.cursor) (hfloor : (world.act acts).log.floor < id) :
    ∃ e ∈ (world.act acts).log.entries, e.revision = id ∧ world.HasRead e := by
  obtain ⟨e, -, rfl, he⟩ := h.exists_read hlt hle
  have hacted := h.lasting.act acts
  obtain ⟨log, hlog, hmem, -⟩ := hacted.lasting.of_hasRead (hacted.hasRead he)
  exact ⟨e, (hacted.lasting.persists log hlog).kept e hmem hfloor, rfl, he⟩

/-- A watcher that goes on walks along a trail of what was read, and holds it back. -/
theorem walk (h : Track start world w delivered told handed held) (hopen : w.done = false)
    {es : List Entry} (htrail : Trail w.position w'.position es) (hread : ∀ e ∈ es, world.HasRead e)
    (hcursor : w'.cursor = w.cursor)
    (hpending : w'.pending = w.pending ++ shown es) :
    Track start world w' delivered told handed (held ++ es) where
  lasting := h.lasting
  behind := hcursor ▸ h.behind
  ahead := hcursor ▸ h.ahead.append htrail
  read e he := by
    rw [← List.append_assoc] at he
    rcases List.mem_append.1 he with he | he
    · exact h.read e he
    · exact hread e he
  delivered := h.delivered
  pending := by
    rcases h.pending with hheld | ⟨hdone, -⟩
    · exact Or.inl (by rw [hpending, hheld, shown_append])
    · rw [hopen] at hdone
      cases hdone
  told := h.told

/-- What a watcher that has not ended holds back is pending. -/
theorem pending_eq (h : Track start world w delivered told handed held) (hopen : w.done = false) :
    w.pending = shown held := by
  rcases h.pending with hheld | ⟨hdone, -⟩
  · exact hheld
  · rw [hopen] at hdone
    cases hdone

/-- A watcher hands out all that it holds back. -/
theorem flush (h : Track start world w delivered told handed held)
    (hheld : w.pending = shown held) :
    Track start world { w with cursor := w.position, pending := [] } (delivered ++ w.pending) told
      (handed ++ held) [] where
  lasting := h.lasting
  behind := h.behind.append h.ahead
  ahead := rfl
  read e he := h.read e (by rwa [List.append_nil] at he)
  delivered := by rw [h.delivered, hheld, shown_append]
  pending := Or.inl rfl
  told := h.told

/-- A watcher hands out the first entry that it holds back. Placeholders before it are passed over,
and those behind the last entry too. -/
theorem pop (h : Track start world w delivered told handed held) {e : Entry}
    (hpop : w.pop = some (e, w')) :
    ∃ handed' held', Track start world w' (delivered ++ [e]) told handed' held' := by
  rcases hpending : w.pending with _ | ⟨f, rest⟩ <;> rw [Watcher.pop, hpending] at hpop <;>
    cases hpop
  have hheld : shown held = e :: rest := by
    rcases h.pending with hheld | ⟨-, hnone⟩
    · rw [← hheld, hpending]
    · rw [hpending] at hnone
      cases hnone
  obtain ⟨gaps, after, rfl, hgaps, hstate, hafter⟩ := List.filter_eq_cons_iff.1 hheld
  have hpassed : shown gaps = [] := List.filter_eq_nil_iff.2 hgaps
  have hone : shown [e] = [e] := List.filter_cons_of_pos hstate
  obtain ⟨b, htrail, hnext, hrest⟩ := h.ahead.of_append
  rcases rest with _ | ⟨f, rest⟩
  · -- the last entry: only placeholders are behind it, and they are passed over too
    refine ⟨handed ++ (gaps ++ e :: after), [], h.lasting, h.behind.append h.ahead, rfl, ?_, ?_,
      Or.inl rfl, h.told⟩
    · rw [List.append_nil]
      exact h.read
    · rw [shown_append, hheld, h.delivered]
  · refine ⟨handed ++ (gaps ++ [e]), after, h.lasting,
      h.behind.append (htrail.concat hnext), hrest, ?_, ?_, Or.inl hafter.symm, h.told⟩
    · intro g hg
      exact h.read g (by simpa using hg)
    · rw [shown_append, shown_append, hpassed, hone, h.delivered, List.nil_append]

/-- An error that is final ends a watcher. -/
theorem fail (h : Track start world w delivered told handed held) (e : Error) :
    Track start world (w.fail e) delivered told handed held := by
  unfold Watcher.fail
  split
  · exact
      { lasting := h.lasting, behind := h.behind,
        ahead := h.ahead, read := h.read, delivered := h.delivered
        pending := Or.inr ⟨rfl, rfl⟩, told := h.told }
  · exact h

/-- A read tells what its answer tells. -/
theorem read_told (h : Track start world w delivered told handed held)
    {answer : Except Error (List Entry)}
    (hread : World.read batch w.position world = (answer, world')) :
    Track start world' w delivered (told ++ tells answer) handed held := by
  rcases h.lasting.readRows hread with ⟨e, rfl, hgenuine, hleads⟩ | ⟨r, -, rfl, hleads⟩
  · rw [tells, hgenuine]
    exact h.leads hleads
  · rw [← filterMap_told?]
    exact h.leads hleads

/-- **A read that is judged is a step along the trail.** What the verdict delivers is
pending then. -/
theorem judged (h : Track start world w delivered told handed held) (hopen : w.done = false)
    (hnone : w.pending = []) {rows : List Entry} {verdict : Verdict}
    (hread : World.read batch w.position world = (.ok rows, world'))
    (hjudge : w.judge rows = (verdict, w')) :
    w'.done = false ∧ w'.pending = [] ∧ ∃ es,
      Track start world' { w' with pending := verdict.batch } delivered told handed
        (held ++ es) := by
  obtain ⟨es, hmem, htrail, hshown, hcursor, hpending, hdone⟩ := exists_trail_of_judge hjudge
  refine ⟨hdone.trans hopen, hpending.trans hnone, es, ?_⟩
  have hafter := h.read_told hread
  rw [tells, List.append_nil] at hafter
  have hgave : ∀ e ∈ rows, world'.HasRead e := by
    intro e he
    rcases h.lasting.readRows hread with ⟨_, herror, -, -⟩ | ⟨r, -, hanswer, hleads⟩
    · cases herror
    · refine ⟨r, ?_, rows, hanswer.symm, he⟩
      rw [hleads.readings]
      simp
  refine hafter.walk hopen htrail (fun e he => hgave e (hmem e he)) hcursor ?_
  rw [hnone, hshown, List.nil_append]

/-- A claim leaves a watcher where it is, and tells nothing of history. -/
theorem claimed (h : Track start world w delivered told handed held) {id : Int}
    {answer : Except Error Unit} (hclaim : World.claim id world = (answer, world')) :
    Track start world' w delivered told handed held ∧ ∀ e, settled answer = some e →
        e.compaction? = none := by
  obtain ⟨hleads, hgenuine⟩ := h.lasting.claim hclaim
  have hafter := h.leads hleads
  rw [List.filterMap_nil, List.append_nil] at hafter
  exact ⟨hafter, fun e hsettled => hgenuine e (error_of_settled hsettled)⟩

/-- **A fetch goes along the trail.** What it delivers is all that is to be shown of the rows it
passes over, and it tells that history is gone exactly where a read of it did. -/
theorem fetch (h : Track start world w delivered told handed held) (hopen : w.done = false)
    (hnone : w.pending = []) {outcome : Except Error (List Entry)}
    (hfetch : Watcher.fetch (World.source batch) fuel w world = ((outcome, w'), world')) :
    w'.done = false ∧ w'.pending = [] ∧ ∃ held',
      Track start world' { w' with pending := given outcome } delivered
        (told ++ tells outcome) handed held' := by
  induction fuel generalizing world w told held with
  | zero =>
    cases hfetch
    refine ⟨hopen, hnone, held, ?_⟩
    rw [given, tells, List.append_nil, withPending_eq hnone]
    exact h
  | succ fuel ih =>
    rw [fetch_succ] at hfetch
    rcases hread : (World.source batch).read w.position world with ⟨e | rows, between⟩ <;>
      rw [hread] at hfetch <;> dsimp only at hfetch
    · cases hfetch
      refine ⟨hopen, hnone, held, ?_⟩
      rw [given, withPending_eq hnone]
      exact h.read_told hread
    · rcases hjudge : w.judge rows with ⟨verdict, moved⟩
      obtain ⟨hopen', hnone', es, hwalk⟩ := h.judged hopen hnone hread hjudge
      rw [hjudge] at hfetch
      rcases verdict with batch' | _ | id <;> dsimp only at hfetch
      · cases hfetch
        refine ⟨hopen', hnone', held ++ es, ?_⟩
        rw [tells, List.append_nil]
        exact hwalk
      · -- only placeholders were read
        rw [Verdict.batch, withPending_eq hnone'] at hwalk
        exact ih hwalk hopen' hnone' hfetch
      · -- an id was missing twice: it is claimed, and whoever got it, the rows are read again
        rw [Verdict.batch, withPending_eq hnone'] at hwalk
        rcases hclaim : (World.source batch).claim id between with ⟨answer, after⟩
        obtain ⟨hafter, hgenuine⟩ := hwalk.claimed hclaim
        rw [hclaim] at hfetch
        dsimp only at hfetch
        rcases hsettled : settled answer with _ | e <;> rw [hsettled] at hfetch
        · exact ih hafter hopen' hnone' hfetch
        · cases hfetch
          refine ⟨hopen', hnone', held ++ es, ?_⟩
          rw [given, tells, hgenuine e hsettled, withPending_eq hnone', Option.toList_none,
            List.append_nil]
          exact hafter

/-! ### Polls -/

/-- A watcher that handed out what a fetch delivered stands at its position. -/
theorem delivered_fetch
    (h : Track start world { w with pending := batch' } delivered told handed held)
    (hopen : w.done = false) (hnone : w.pending = []) :
    Track start world { w with cursor := w.position } (delivered ++ batch') told (handed ++ held)
        [] := by
  have hflush := h.flush (h.pending_eq hopen)
  have hsame : { w with cursor := w.position, pending := [] } =
    { w with cursor := w.position } := by rw [← hnone]
  rw [← hsame]
  exact hflush

/-- **A poll goes along the trail.** -/
theorem poll (h : Track start world w delivered told handed held)
    {outcome : Except Error (List Entry)}
    (hpoll : Watcher.poll (World.source batch) fuel w world = ((outcome, w'), world')) :
    ∃ handed' held',
        Track start world' w' (delivered ++ given outcome) (told ++ tells outcome) handed'
          held' := by
  rw [poll_eq] at hpoll
  split at hpoll
  · -- what is pending is there because the watcher has not ended
    next hsome =>
    cases hpoll
    have hheld : w.pending = shown held := by
      rcases h.pending with hheld | ⟨-, hnone⟩
      · exact hheld
      · simp [hnone] at hsome
    exact ⟨_, _, by rw [tells, List.append_nil]; exact h.flush hheld⟩
  · next hnone =>
    have hnone : w.pending = [] := by simpa using hnone
    split at hpoll
    · cases hpoll
      exact ⟨handed, held, by rw [given, tells, List.append_nil, List.append_nil]; exact h⟩
    · next hopen =>
      have hopen : w.done = false := eq_false_of_ne_true hopen
      rcases hfetch : Watcher.fetch (World.source batch) fuel w world with
        ⟨⟨e | batch', w₁⟩, world₁⟩ <;>
        rw [hfetch] at hpoll <;> cases hpoll <;> obtain ⟨hopen', hnone', held', hafter⟩ :=
          h.fetch hopen hnone hfetch
      · rw [given, withPending_eq hnone'] at hafter
        rw [given, List.append_nil]
        exact ⟨handed, held', hafter.fail e⟩
      · exact ⟨_, _, hafter.delivered_fetch hopen' hnone'⟩

/-! ### Waiting -/

/-- **A round goes along the trail.** -/
theorem round (h : Track start world w delivered told handed held) {pull : Pull}
    (hround : Watcher.round (World.source batch) fuel w world = ((pull, w'), world')) :
    ∃ handed' held',
      Track start world' w' (delivered ++ pull.entries) (told ++ pull.tells) handed' held' := by
  rw [round_eq] at hround
  rcases hpop : w.pop with _ | ⟨e, w₁⟩ <;> rw [hpop] at hround <;> dsimp only at hround
  · have hnone : w.pending = [] := pending_eq_nil_of_pop hpop
    split at hround
    · cases hround
      refine ⟨handed, held, ?_⟩
      rw [Pull.entries, Pull.tells, List.append_nil, List.append_nil]
      exact h
    · next hopen =>
      have hopen : w.done = false := eq_false_of_ne_true hopen
      rcases hfetch : Watcher.fetch (World.source batch) fuel w world with
        ⟨⟨e | batch', w₁⟩, world₁⟩ <;> rw [hfetch] at hround <;> dsimp only at hround <;>
        obtain ⟨hopen', hnone', held', hafter⟩ := h.fetch hopen hnone hfetch
      · split at hround
        · cases hround
          rw [given, withPending_eq hnone'] at hafter
          rw [Pull.entries, List.append_nil]
          exact ⟨handed, held', hafter.fail e⟩
        · -- an error that is not final is tried again, and such an error tells nothing of history
          next hstays =>
          cases hround
          have hgenuine : e.compaction? = none := by
            cases e <;> first | rfl | exact absurd rfl hstays
          rw [given, tells, hgenuine, withPending_eq hnone', Option.toList_none] at hafter
          rw [Pull.entries, Pull.tells, List.append_nil]
          exact ⟨handed, held', hafter⟩
      · rw [given, tells, List.append_nil] at hafter
        rcases hfirst : { w₁ with pending := batch' }.pop with _ | ⟨e, w₂⟩ <;>
          rw [hfirst] at hround <;> cases hround
        · have hempty : batch' = [] := pending_eq_nil_of_pop hfirst
          have hdone := hafter.delivered_fetch hopen' hnone'
          rw [hempty] at hdone
          exact ⟨_, _, by rw [Pull.entries, Pull.tells, List.append_nil told]; exact hdone⟩
        · obtain ⟨handed', held'', htrack⟩ := hafter.pop hfirst
          exact ⟨handed', held'', by rw [Pull.tells, List.append_nil]; exact htrack⟩
  · cases hround
    obtain ⟨handed', held', htrack⟩ := h.pop hpop
    exact ⟨handed', held', by rw [Pull.tells, List.append_nil]; exact htrack⟩

/-- **Waiting goes along the trail**, also where the one who waits gives up in a pause. -/
theorem next (h : Track start world w delivered told handed held) (bound : World → Nat)
    {rounds : Nat} {pull : Pull}
    (hnext : Watcher.next (World.source batch) World.pause (World.bounded bound) rounds w world =
      ((pull, w'), world')) :
    ∃ handed' held',
      Track start world' w' (delivered ++ pull.entries) (told ++ pull.tells) handed' held' := by
  induction rounds generalizing world w told handed held with
  | zero =>
    cases hnext
    refine ⟨handed, held, ?_⟩
    rw [Pull.entries, Pull.tells, List.append_nil, List.append_nil]
    exact h
  | succ rounds ih =>
    rw [next_succ, World.bounded] at hnext
    dsimp only at hnext
    rcases hround : Watcher.round (World.source batch) (bound world) w world with
      ⟨⟨pulled, w₁⟩, world₁⟩
    obtain ⟨handed₁, held₁, hafter⟩ := h.round hround
    rw [hround] at hnext
    cases pulled with
    | nothing =>
      rw [Pull.entries, Pull.tells, List.append_nil, List.append_nil] at hafter
      rcases hpause : World.pause world₁ with ⟨rest, world₂⟩
      have hpaused := hafter.leads (hafter.lasting.pause hpause)
      rw [List.filterMap_nil, List.append_nil] at hpaused
      dsimp only at hnext
      rw [hpause] at hnext
      rcases rest with _ | cause | _
      · exact ih hpaused hnext
      · cases hnext
        have hgenuine : cause.toError.compaction? = none := by cases cause <;> rfl
        rw [Pull.entries, Pull.tells, hgenuine, Option.toList_none, List.append_nil,
          List.append_nil]
        exact ⟨handed₁, held₁, hpaused.fail cause.toError⟩
      · cases hnext
        rw [Pull.entries, Pull.tells, List.append_nil, List.append_nil]
        exact ⟨handed₁, held₁, hpaused⟩
    | entry e =>
      cases hnext
      exact ⟨handed₁, held₁, hafter⟩
    | ended =>
      cases hnext
      exact ⟨handed₁, held₁, hafter⟩
    | failed e =>
      cases hnext
      exact ⟨handed₁, held₁, hafter⟩

end Track

end RevisionLog
