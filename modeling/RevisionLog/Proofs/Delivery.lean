import RevisionLog.Proofs.Replay
import RevisionLog.Proofs.Tracking

/-!
# What a watcher delivers

A watcher is pulled in any way, while anything happens to the log between any two of its
transactions, and it is dropped and started again at its cursor. It delivers every state that is
committed above its start, once and in order, and it tells that history is gone exactly where a read
finds it so.

* `Call`, `Drive` — what is done with a watcher, and what came of it.
* `Drive.Complete` — what is promised at every moment.
* `Log.Start.watch_complete` — the promise holds.
-/

namespace RevisionLog

/-! ## Drives -/

/-- What is done with a watcher. What happens in the world meanwhile is told with each call. -/
inductive Call
  /-- nothing is done with it, and others act -/
  | wait (acts : List Act)
  | poll (turns : List Turn)
  | next (rounds : Nat) (turns : List Turn) (rests : List Rest)
  /-- it is dropped, and a new one is started at its cursor -/
  | resume

/-- A watcher in a world, and what it delivered and told of history that is gone. -/
structure Drive where
  world : World
  watcher : Watcher
  delivered : List Entry := []
  told : List (Int × Int) := []

namespace Drive

/-- A watcher that is started in a world. -/
def start (world : World) (revision : Int) : Drive := { world, watcher := .since revision }

/-- What a call makes of a drive. `batch` bounds a read and `bound` a fetch. -/
def call (batch : Nat) (bound : World → Nat) (d : Drive) : Call → Drive
  | .wait acts => { d with world := d.world.act acts }
  | .poll turns =>
    match d.watcher.poll (World.source batch) (bound d.world) { d.world with turns } with
    | ((outcome, watcher), world) =>
      { world, watcher, delivered := d.delivered ++ given outcome, told := d.told ++ tells outcome }
  | .next rounds turns rests =>
    match d.watcher.next (World.source batch) World.pause (World.bounded bound) rounds
      { d.world with turns, rests } with
    | ((pull, watcher), world) =>
      { world, watcher, delivered := d.delivered ++ pull.entries, told := d.told ++ pull.tells }
  | .resume => { d with watcher := .since d.watcher.cursor }

/-- What calls make of a drive. -/
def run (batch : Nat) (bound : World → Nat) (d : Drive) (calls : List Call) : Drive :=
  calls.foldl (call batch bound) d

/-- What is promised of a watcher that was started at a revision. -/
structure Complete (revision : Int) (d : Drive) : Prop where
  ordered : d.delivered.Pairwise (·.revision < ·.revision)
  within : ∀ e ∈ d.delivered, revision < e.revision ∧ e.revision ≤ d.watcher.cursor
  /-- under each id up to the cursor one committed row was read, and it was delivered once, or never
  if it is a placeholder -/
  read : ∀ id, revision < id → id ≤ d.watcher.cursor → ∃ e : Entry, e.revision = id ∧
    d.world.HasRead e ∧ (∀ f, d.world.HasRead f → f.revision = id → f = e) ∧
    (∃ log ∈ d.world.states, e ∈ log.entries ∧ log.floor < id) ∧
    d.delivered.filter (·.revision = id) = if e.isGap then [] else [e]
  /-- whoever read such an id in any state of the log, at any position, read the same row -/
  agreed : ∀ log ∈ d.world.states, ∀ position batch es, Store.since log position batch = .ok es →
    ∀ e ∈ es, revision < e.revision → e.revision ≤ d.watcher.cursor → d.world.HasRead e
  /-- such an id stays taken by the row that was read, as long as it is above the floor -/
  taken : ∀ acts id, revision < id → id ≤ d.watcher.cursor → (d.world.act acts).log.floor < id →
    ∃ e ∈ (d.world.act acts).log.entries, e.revision = id ∧ d.world.HasRead e
  /-- so no row of a user can appear there -/
  closed : ∀ acts e, revision < e.revision → e.revision ≤ d.watcher.cursor →
    ¬(d.world.act acts).log.Admits e
  /-- history is told to be gone once for every read whose position is below the floor -/
  told : d.told = (d.world.readings.filter Reading.isBelow).map fun r => (r.position, r.log.floor)

/-- A watcher of a drive is on the track from a revision. -/
def OnTrack (revision : Int) (d : Drive) : Prop :=
  ∃ handed held, Track revision d.world d.watcher d.delivered d.told handed held

variable {revision : Int} {d : Drive}

theorem onTrack_start {world : World} (h : world.Lasting) (hnone : world.readings = [])
    (hpos : 0 ≤ revision) : (start world revision).OnTrack revision := by
  have hstart : max revision 0 = revision := Int.max_eq_left hpos
  refine ⟨[], [], h, ?_, rfl, fun e he => (by cases he), rfl, Or.inl rfl, ?_⟩
  · rw [start, Watcher.since, hstart]
    exact rfl
  · show [] = world.readings.filterMap Reading.told?
    rw [hnone]
    rfl

/-- **A call keeps a watcher on its track.** -/
theorem OnTrack.call (h : d.OnTrack revision) (hpos : 0 ≤ revision) (batch : Nat)
    (bound : World → Nat) (c : Call) : (d.call batch bound c).OnTrack revision := by
  obtain ⟨handed, held, htrack⟩ := h
  cases c with
  | wait acts =>
    have hacted := htrack.leads (htrack.lasting.act acts)
    rw [List.filterMap_nil, List.append_nil] at hacted
    exact ⟨handed, held, hacted⟩
  | poll turns =>
    have hready :=
      htrack.leads ⟨htrack.lasting.replan turns d.world.rests, (List.append_nil _).symm⟩
    rw [List.filterMap_nil, List.append_nil] at hready
    rcases hpoll : d.watcher.poll (World.source batch) (bound d.world) { d.world with turns } with
      ⟨⟨outcome, watcher⟩, world⟩
    rw [Drive.call, hpoll]
    exact hready.poll hpoll
  | next rounds turns rests =>
    have hready := htrack.leads ⟨htrack.lasting.replan turns rests, (List.append_nil _).symm⟩
    rw [List.filterMap_nil, List.append_nil] at hready
    rcases hnext : d.watcher.next (World.source batch) World.pause (World.bounded bound) rounds
      { d.world with turns, rests } with ⟨⟨pull, watcher⟩, world⟩
    rw [Drive.call, hnext]
    exact hready.next bound hnext
  | resume =>
    -- what was held back is dropped with the watcher, and lies ahead of the new one again
    have hcursor : max d.watcher.cursor 0 = d.watcher.cursor :=
      Int.max_eq_left (Int.le_trans hpos htrack.behind.le)
    refine ⟨handed, [], htrack.lasting, ?_, rfl, ?_, htrack.delivered, Or.inl rfl, htrack.told⟩
    · rw [Drive.call, Watcher.since, hcursor]
      exact htrack.behind
    · intro e he
      rw [List.append_nil] at he
      exact htrack.read e (List.mem_append_left _ he)

/-- **Calls keep a watcher on its track.** -/
theorem OnTrack.run (h : d.OnTrack revision) (hpos : 0 ≤ revision) (batch : Nat)
    (bound : World → Nat) (calls : List Call) : (d.run batch bound calls).OnTrack revision := by
  induction calls generalizing d with
  | nil => exact h
  | cons c calls ih => exact ih (h.call hpos batch bound c)

end Drive

/-! ## What being on the track means -/

/-- Of a list in increasing order, a condition on the key selects one element. -/
theorem filter_eq_singleton {α : Type} {f : α → Int} {l : List α}
    (hl : l.Pairwise fun a b => f a < f b) {a : α} (ha : a ∈ l) :
    l.filter (fun b => f b = f a) = [a] := by
  obtain ⟨front, back, rfl⟩ := List.append_of_mem ha
  obtain ⟨-, hback, hfront⟩ := List.pairwise_append.1 hl
  have hbefore : front.filter (fun b => decide (f b = f a)) = [] := by
    refine List.filter_eq_nil_iff.2 fun b hb => ?_
    have hlt := hfront b hb a List.mem_cons_self
    simp; omega
  have hafter : back.filter (fun b => decide (f b = f a)) = [] := by
    refine List.filter_eq_nil_iff.2 fun b hb => ?_
    have hlt := (List.pairwise_cons.1 hback).1 b hb
    simp; omega
  rw [List.filter_append, hbefore, List.filter_cons_of_pos (by simp), hafter, List.nil_append]

namespace Drive

variable {revision : Int} {d : Drive}

/-- **A watcher on its track keeps all that is promised.** -/
theorem OnTrack.complete (h : d.OnTrack revision) : d.Complete revision := by
  obtain ⟨handed, held, htrack⟩ := h
  have hlasting := htrack.lasting
  refine
    { ordered := ?ordered
      within := ?within
      read := ?read
      agreed := ?agreed
      taken := fun acts id hlt hle hfloor => htrack.taken acts hlt hle hfloor
      closed := ?closed
      told := ?told }
  case ordered =>
    rw [htrack.delivered]
    exact htrack.behind.pairwise.filter _
  case within =>
    intro e he
    rw [htrack.delivered] at he
    exact htrack.behind.bounds (List.mem_filter.1 he).1
  case read =>
    intro id hlt hle
    obtain ⟨e, hmem, rfl, he⟩ := htrack.exists_read hlt hle
    obtain ⟨log, hlog, hrow, hfloor⟩ := hlasting.of_hasRead he
    refine ⟨e, rfl, he, fun f hf hrev => hlasting.eq_of_hasRead hf hlog hrow hfloor hrev,
      ⟨log, hlog, hrow, hfloor⟩, ?_⟩
    rw [htrack.delivered, Watcher.shown, List.filter_comm,
      filter_eq_singleton htrack.behind.pairwise hmem]
    by_cases hgap : e.isGap = true <;> simp [hgap]
  case agreed =>
    intro log hlog position batch es hsince e he hlt hle
    have hgave : Reading.Gave ⟨position, log, batch⟩ e := ⟨es, hsince, he⟩
    obtain ⟨hrow, -, hfloor⟩ := Reading.of_gave (hlasting.tidy log hlog) hgave
    obtain ⟨f, -, hrev, hf⟩ := htrack.exists_read hlt hle
    obtain rfl := hlasting.eq_of_hasRead hf hlog hrow hfloor hrev
    exact hf
  case closed =>
    intro acts e hlt hle hadmits
    obtain ⟨f, hf, hrev, -⟩ := htrack.taken acts hlt hle hadmits.2.2.1
    obtain ⟨r, hr, rfl⟩ := Log.mem_entries.1 hf
    exact hadmits.2.2.2 r hr hrev
  case told =>
    rw [htrack.told, ← List.filterMap_eq_map', List.filterMap_filter]
    refine List.filterMap_congr ?_
    intro r hr
    exact Reading.told?_eq (hlasting.tidy _ (hlasting.read r hr))

end Drive

/-- **Watching is complete.** A watcher that is started at a revision, after anything that happened
to a log since its start, keeps what is promised at every moment, whatever is done with it and
whatever happens meanwhile. -/
theorem Log.Start.watch_complete {log : Log} (h : log.Start) (before : List Act) {revision : Int}
    (hpos : 0 ≤ revision) (batch : Nat) (bound : World → Nat) (calls : List Call) :
    ((Drive.start (World.act { log } before) revision).run batch bound calls).Complete
        revision := by
  have hbegin := (World.lasting_start h.intact.toTidy).act before
  exact ((Drive.onTrack_start hbegin.lasting hbegin.readings hpos).run hpos batch bound
    calls).complete

/-- Two rows appear around a missing id, which is claimed after it was missing twice. Then history
is compacted away behind the watcher, which tells so, and so does the one that is started at its
cursor. -/
theorem Log.Start.exists_watch_complete :
    ∃ (log : Log) (before : List Act) (calls : List Call) (d : Drive), log.Start ∧ (0 : Int) ≤ 0 ∧
    d = (Drive.start (World.act { log } before) 0).run 2 (fun _ => 9) calls ∧
    (d.delivered.map Entry.revision, d.told, d.watcher.cursor) = ([1, 3], [(3, 5), (3, 5)], 3) ∧
    d.Complete 0 := by
  refine ⟨{ indexing := .linkFirst },
    [.commit ⟨1, "a", true, false, 1, 0, 0, [1], []⟩,
      .commit ⟨3, "a", false, false, 1, 1, 0, [2], [1]⟩],
    [.poll [], .next 1 [] [], .wait [.commit ⟨5, "b", true, false, 5, 0, 0, [3], []⟩, .compact 5],
      .poll [], .resume, .next 2 [{ failure := some .poolExhausted }] []],
    _, .empty, by decide, rfl, ?_, Log.Start.empty.watch_complete _ (by decide) 2 (fun _ => 9) _⟩
  decide +kernel

end RevisionLog
