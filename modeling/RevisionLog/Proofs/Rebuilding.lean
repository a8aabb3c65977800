import RevisionLog.Proofs.Chronicle
import RevisionLog.Proofs.Delivery

/-!
# Rebuilding a store

A list tells what is live at a revision, and a watcher that is started there delivers what comes
after. Who begins with the list and applies what is delivered always has what the next list would
tell.

* `Replica` — a map from names to live states, and how it is changed by a state that is delivered.
* `Chronicle.leads` — the states of a chronicle lead from what is live before them to what is live
  after them.
* `Log.Tidy.list_all` — the list of all names, as a replica.
* `Track.delivered_eq` — what a watcher delivers is the part of the chronicle from its start to its
  cursor.
* `World.Ran` — the states of a world are those of a run of operations, as clients and watchers
  bring it about.
* `Drive.rebuilds` — a list and a watcher rebuild the store.
-/

namespace RevisionLog

/-! ## Replicas -/

/-- A map from names to live states. -/
abbrev Replica := String → Option Entry

namespace Replica

/-- The replica that a list makes. -/
def ofList (es : List Entry) : Replica := fun name => es.find? (·.name = name)

/-- A replica after a state is delivered: the name is taken away by a deletion, and has the state
otherwise. -/
def apply (m : Replica) (e : Entry) : Replica :=
  Function.update m e.name (if e.deleted then none else some e)

/-- A state may be applied to a replica: a creation where the name is absent, and any other state
where the one that it follows is stored. -/
def Fits (m : Replica) (e : Entry) : Prop :=
  if e.created then m e.name = none
  else ∃ p, m e.name = some p ∧ p.revision = e.prevRevision ∧ p.value = e.oldValue ∧
    p.createRevision = e.createRevision

/-- States that are applied in order lead from one replica to another, and each of them may be
applied. -/
def Leads : Replica → List Entry → Replica → Prop
  | m, [], m' => m = m'
  | m, e :: es, m' => m.Fits e ∧ (m.apply e).Leads es m'

end Replica

/-! ## Parts of a chronicle -/

/-- Of states, those above a revision and up to another one. -/
def between (past : List Entry) (start stop : Int) : List Entry :=
  past.filter fun e => start < e.revision && e.revision ≤ stop

/-- States in order are those up to a revision and those above it. -/
theorem filter_append_filter {α : Type} {f : α → Int} {l : List α}
    (hl : l.Pairwise fun a b => f a < f b) (n : Int) :
    l.filter (f · ≤ n) ++ l.filter (n < f ·) = l := by
  induction l with
  | nil => rfl
  | cons a l ih =>
    obtain ⟨hfirst, hrest⟩ := List.pairwise_cons.1 hl
    rcases Int.lt_or_le n (f a) with habove | hle
    · have hnone : l.filter (f · ≤ n) = [] := by
        refine List.filter_eq_nil_iff.2 fun b hb => ?_
        have hlt := hfirst b hb
        simp
        omega
      have hall : l.filter (n < f ·) = l := by
        refine List.filter_eq_self.2 fun b hb => decide_eq_true ?_
        have hlt := hfirst b hb
        omega
      rw [List.filter_cons_of_neg (by simp; omega), List.filter_cons_of_pos (by simpa using habove),
        hnone, hall, List.nil_append]
    · rw [List.filter_cons_of_pos (by simpa using hle), List.filter_cons_of_neg (by simp; omega),
        List.cons_append, ih hrest]

namespace Chronicle

variable {past later : List Entry}

/-- The states up to a revision are a chronicle. -/
theorem upTo (h : Chronicle past) (revision : Int) : Chronicle (upTo past revision) := by
  rw [← filter_append_filter h.pairwise revision] at h
  exact h.of_append

/-- The states up to a revision are those up to an earlier one and those between the two. -/
theorem upTo_append_between (h : Chronicle past) {start stop : Int} (hle : start ≤ stop) :
    RevisionLog.upTo past start ++ between past start stop = RevisionLog.upTo past stop := by
  have hsplit := filter_append_filter (h.upTo stop).pairwise start
  rw [← hsplit, RevisionLog.upTo, RevisionLog.upTo, List.filter_filter, List.filter_filter]
  congr 1
  refine List.filter_congr fun e _ => ?_
  rw [Bool.eq_iff_iff, Bool.and_eq_true, decide_eq_true_iff, decide_eq_true_iff]
  omega

/-- The replica after a state has what the states up to it make of the names. -/
theorem view_concat (past : List Entry) (e : Entry) :
    view (past ++ [e]) = Replica.apply (view past) e := by
  funext name
  rw [Replica.apply, view, statesOf_concat]
  by_cases hname : e.name = name
  · subst hname
    rw [if_pos rfl, List.getLast?_concat, Function.update_self, Option.filter_some]
    cases e.deleted <;> rfl
  · rw [if_neg hname, Function.update_of_ne (Ne.symm hname), view]

/-- The next state of a chronicle may be applied to what is live before it. -/
theorem fits {e : Entry} (h : Chronicle (past ++ e :: later)) : Replica.Fits (view past) e := by
  have hfollows := h.follows
  rw [Entry.Follows] at hfollows
  rw [Replica.Fits, view]
  rcases hlast : (statesOf past e.name).getLast? with _ | p <;> rw [hlast] at hfollows <;>
    dsimp only at hfollows
  · rw [if_pos hfollows]
    rfl
  · -- a creation finds that the last state deletes, and any other state that it does not
    rw [Option.filter_some, ← hfollows.turn]
    rcases hcreated : e.created with _ | _
    · exact ⟨p, rfl, (hfollows.link hcreated).symm, (hfollows.replaced hcreated).symm,
        (hfollows.beginning hcreated).symm⟩
    · rfl

/-- **The states of a chronicle lead from what is live before them to what is live after them.** -/
theorem leads (h : Chronicle (past ++ later)) :
    Replica.Leads (view past) later (view (past ++ later)) := by
  induction later generalizing past with
  | nil => exact congrArg view (List.append_nil past).symm
  | cons e later ih =>
    refine ⟨h.fits, ?_⟩
    rw [List.append_cons] at h ⊢
    rw [← view_concat]
    exact ih h

end Chronicle

/-! ## The list of all names -/

/-- A list that has every name once makes a replica that has just its states. -/
theorem Replica.ofList_eq_some {es : List Entry} (hes : es.Pairwise (·.name ≠ ·.name))
    {name : String} {e : Entry} : ofList es name = some e ↔ e ∈ es ∧ e.name = name := by
  constructor
  · intro hfind
    exact ⟨List.mem_of_find?_eq_some hfind, by simpa using List.find?_some hfind⟩
  · rintro ⟨he, rfl⟩
    induction es with
    | nil => cases he
    | cons f es ih =>
      obtain ⟨hfirst, hrest⟩ := List.pairwise_cons.1 hes
      rw [ofList, List.find?_cons]
      rcases List.mem_cons.1 he with rfl | he
      · rw [decide_eq_true rfl]
      · rw [decide_eq_false (hfirst e he)]
        exact ih hrest he

namespace Pattern

variable {α : Type}

theorem nil_mem_suffixes (cs : List α) : [] ∈ suffixes cs := by
  induction cs with
  | nil => exact List.mem_singleton_self []
  | cons c cs ih => exact List.mem_cons_of_mem _ ih

/-- The pattern for the names that begin with nothing matches every name. -/
theorem finds_ofPrefix_empty (same : Char → α → Bool) (name : List α) :
    finds same (ofPrefix "").toList name = true := by
  have hpieces : pieces? (untilNul (ofPrefix "").toList) = some [.run] := by decide
  rw [finds, hpieces]
  exact List.any_eq_true.2 ⟨[], nil_mem_suffixes _, rfl⟩

theorem selects_ofPrefix_empty (name : List Char) : selects (ofPrefix "").toList name = true :=
  finds_ofPrefix_empty _ name

theorem selectsRead_ofPrefix_empty (name : List (Option Char)) :
    selectsRead (ofPrefix "").toList name = true :=
  finds_ofPrefix_empty _ name

end Pattern

namespace Log

variable {log : Log} {revision at' : Int}

/-- **The list of all names** has every live state, and every name once. -/
theorem Tidy.list_all (h : log.Tidy) (hr : Store.resolve log revision = .ok at') :
    ∃ es, Store.list log "" 0 revision = .ok es ∧ es.Pairwise (·.name ≠ ·.name) ∧
      Replica.ofList es = fun name => log.liveAt? name at' := by
  have hlist : Store.list log "" 0 revision = .ok _ := h.list_of_short hr (by decide)
  have hnames : (byNames (log.standing (Pattern.ofPrefix "") at')).Pairwise (·.name ≠ ·.name) :=
    (List.mergeSort_perm _ _).symm.pairwise (log.name_ne_of_standing _ at') fun hne => hne.symm
  refine ⟨_, hlist, hnames, ?_⟩
  funext name
  refine Option.ext fun e => ?_
  rw [Replica.ofList_eq_some hnames, byNames, List.mem_mergeSort, mem_standing]
  constructor
  · rintro ⟨⟨hlive, -⟩, rfl⟩
    exact hlive
  · intro hlive
    obtain rfl : e.name = name := (mem_chain.1 (liveAt?_eq_some.1 hlive).1).2.1
    exact ⟨⟨hlive, Pattern.selects_ofPrefix_empty _⟩, rfl⟩

end Log

/-! ## The part of the chronicle that is delivered -/

/-- **A watcher delivers a part of the chronicle**, all from its start to its cursor. -/
theorem Track.delivered_eq {start : Int} {world : World} {w : Watcher}
    {delivered handed held past : List Entry} {told : List (Int × Int)}
    (h : Track start world w delivered told handed held) (hpast : Chronicle past)
    (hrecollects : ∀ s ∈ world.states, s.Recollects past) :
    delivered = between past start w.cursor := by
  -- what was read and is no placeholder is in the chronicle
  have hrecorded : ∀ e ∈ handed, e.isGap = false → e ∈ past := by
    intro e he hgap
    obtain ⟨log, hlog, hrow, -⟩ := h.lasting.of_hasRead (h.read e (List.mem_append_left _ he))
    exact (hrecollects log hlog).recorded (Log.mem_chain.2 ⟨hrow, rfl, hgap⟩)
  rw [h.delivered, Watcher.shown]
  refine Log.eq_of_mem_iff_of_pairwise (h.behind.pairwise.filter _)
    (hpast.pairwise.filter _) fun e => ?_
  rw [List.mem_filter, Bool.not_eq_true', between, List.mem_filter, Bool.and_eq_true,
    decide_eq_true_iff, decide_eq_true_iff]
  constructor
  · rintro ⟨he, hgap⟩
    exact ⟨hrecorded e he hgap, h.behind.bounds he⟩
  · rintro ⟨he, hlt, hle⟩
    -- some row was read under the revision of the state, and it can only be the row of the state
    obtain ⟨f, hf, hrev, hread⟩ := h.exists_read hlt hle
    obtain ⟨log, hlog, hrow, hfloor⟩ := h.lasting.of_hasRead hread
    have hgap : f.isGap = false := by
      by_contra hgap
      exact (hrecollects log hlog).unfilled hrow (by simpa using hgap) hfloor he hrev.symm
    obtain rfl := hpast.eq_of_revision_eq (hrecorded f hf hgap) he hrev
    exact ⟨hf, hgap⟩

/-- A watcher is not ahead of the states that it reads, unless it starts there. -/
theorem Track.cursor_le {start : Int} {world : World} {w : Watcher}
    {delivered handed held : List Entry} {told : List (Int × Int)}
    (h : Track start world w delivered told handed held) {revision : Int}
    (hstart : start ≤ revision) (hstates : ∀ s ∈ world.states, s.current ≤ revision) :
    w.cursor ≤ revision := by
  rcases Int.lt_or_le start w.cursor with hlt | hle
  · obtain ⟨e, -, hrev, hread⟩ := h.exists_read hlt (Int.le_refl _)
    obtain ⟨log, hlog, hrow, -⟩ := h.lasting.of_hasRead hread
    rw [← hrev]
    exact Int.le_trans (Log.revision_le_current hrow) (hstates log hlog)
  · exact Int.le_trans hle hstart

/-! ## Rebuilding -/

/-- What one begins with at a revision: the list of all names, and nothing before the first
revision. -/
def Log.snapshot (log : Log) (revision : Int) : Except Error (List Entry) :=
  if revision = 0 then .ok [] else Store.list log "" 0 revision

/-- What happened in a world is a run of operations on a log. -/
def World.Ran (world : World) (log : Log) (ops : List Op) : Prop :=
  world.states.reverse = log.course ops

instance (world : World) (log : Log) (ops : List Op) : Decidable (world.Ran log ops) :=
  inferInstanceAs (Decidable (_ = _))

namespace World

variable {world : World} {log : Log} {ops : List Op}

theorem Ran.log_eq (h : world.Ran log ops) : world.log = log.play ops := by
  have hlast := log.getLast?_course ops
  rw [← h, List.getLast?_reverse] at hlast
  exact Option.some.inj hlast

theorem Ran.mem_course (h : world.Ran log ops) {s : Log} (hs : s ∈ world.states) :
    s ∈ log.course ops := by
  rw [← h]
  exact List.mem_reverse.2 hs

/-- A world goes on with an operation. -/
theorem Ran.move (h : world.Ran log ops) (op : Op) :
    (world.move (op.perform world.log).2).Ran log (ops ++ [op]) := by
  show ((op.perform world.log).2 :: world.states).reverse = _
  rw [List.reverse_cons, h, h.log_eq, log.course_concat]

/-- **Any operation may happen next** in a world. -/
theorem Ran.exists_act (h : world.Ran log ops) (hlog : log.Intact) (op : Op) :
    ∃ a : Act, (world.act [a]).Ran log (ops ++ [op]) := by
  obtain ⟨a, ha⟩ := (hlog.play ops).exists_act op
  have hmove := h.move op
  rw [h.log_eq, ha, ← h.log_eq] at hmove
  exact ⟨a, hmove⟩

/-- What a watcher claims is an operation too. -/
theorem Ran.claim (h : world.Ran log ops) (hturns : world.turns = []) {id : Int}
    (positive : 0 < id) : ∃ more, (World.claim id world).2.Ran log (ops ++ more) := by
  rw [World.claim, takeTurn, hturns]
  dsimp only
  rcases hfill : Store.fill world.log id with e | filled
  · exact ⟨[], by rwa [List.append_nil]⟩
  · refine ⟨[.fill id positive], ?_⟩
    have hmove := h.move (.fill id positive)
    rwa [Op.perform, Op.on, hfill] at hmove

end World

namespace Log.Recollects

variable {log : Log} {past : List Entry} {revision : Int}

theorem sound (h : log.Recollects past) : log.Sound := by
  obtain ⟨early, -, -, hrecalls, -⟩ := h
  exact hrecalls.toSound

/-- What one begins with is what is live in the chronicle. -/
theorem snapshot_eq (h : log.Recollects past) (hpast : Chronicle past)
    (hfloor : log.floor ≤ revision) (hle : revision ≤ log.current) :
    ∃ es, log.snapshot revision = .ok es ∧ Replica.ofList es = view (upTo past revision) := by
  by_cases hzero : revision = 0
  · -- no state has a revision before the first one
    have hnone : upTo past revision = [] := upTo_eq_nil fun p hp => hzero ▸ hpast.positive p hp
    exact ⟨[], if_pos hzero, by rw [hnone]; rfl⟩
  · have hresolve := h.sound.resolve_eq revision
    rw [if_neg hzero, if_neg (Int.not_lt.2 hle), if_neg (Int.not_lt.2 hfloor)] at hresolve
    obtain ⟨es, hlist, -, hes⟩ := h.sound.list_all hresolve
    exact ⟨es, by rw [snapshot, if_neg hzero,
      hlist], by rw [hes]; exact funext (h.liveAt?_eq hfloor hle)⟩

end Log.Recollects

namespace Drive

variable {ops : List Op} {revision : Int} {batch : Nat} {bound : World → Nat} {calls : List Call}

/-- **A list and a watcher rebuild the store.** Clients and watchers do anything to an empty store.
Who began with the list at a revision, in any state of the store that could be read there, and
applies what a watcher from this revision delivers, has what a list tells at the cursor of the
watcher. Each state that is delivered may be applied where it comes. -/
theorem rebuilds {d : Drive}
    (hd : d = (start { log := { indexing := .linkFirst } } revision).run batch bound calls)
    (hran : d.world.Ran { indexing := .linkFirst } ops) {first : Log}
    (hfirst : first ∈ d.world.states)
    {low high low' : Int} (hlow : Store.compactedTo first = .ok low)
    (hhigh : Store.currentRevision first = .ok high)
    (hreadable : low ≤ revision ∧ revision ≤ high)
    (hlow' : Store.compactedTo d.world.log = .ok low')
    (hcursor : low' ≤ d.watcher.cursor) (hpos : 1 ≤ d.watcher.cursor) :
    ∃ es fs, first.snapshot revision = .ok es ∧
      Store.list d.world.log "" 0 d.watcher.cursor = .ok fs ∧
      (Replica.ofList es).Leads d.delivered (Replica.ofList fs) := by
  obtain ⟨past, -, hplay, hcourse⟩ := Log.recalls_empty.exists_recollects ops
  rw [List.nil_append, ← hran.log_eq] at hplay hcourse
  have hrecollects : ∀ s ∈ d.world.states, s.Recollects past ∧ s.current ≤ d.world.log.current :=
    fun s hs => hcourse s (hran.mem_course hs)
  obtain ⟨hbegin, hbehind⟩ := hrecollects first hfirst
  obtain ⟨hlast, -⟩ := hrecollects d.world.log List.mem_cons_self
  -- what the store says of its revisions
  obtain rfl : low = first.floor := Except.ok.inj (hlow.symm.trans hbegin.sound.store_compactedTo)
  obtain rfl : high = first.current :=
    Except.ok.inj (hhigh.symm.trans hbegin.sound.store_currentRevision)
  obtain rfl : low' = d.world.log.floor :=
    Except.ok.inj (hlow'.symm.trans hlast.sound.store_compactedTo)
  have hnonneg : 0 ≤ revision := Int.le_trans hbegin.sound.floor_nonneg hreadable.1
  have htrack : d.OnTrack revision := by
    rw [hd]
    exact (onTrack_start (World.lasting_start Log.recalls_empty.toTidy) rfl hnonneg).run hnonneg
      batch bound calls
  obtain ⟨handed, held, htrack⟩ := htrack
  have hreached : d.watcher.cursor ≤ d.world.log.current :=
    htrack.cursor_le (Int.le_trans hreadable.2 hbehind) fun s hs => (hrecollects s hs).2
  have hdelivered := htrack.delivered_eq hplay.chronicle fun s hs => (hrecollects s hs).1
  obtain ⟨es, hsnapshot, hes⟩ := hbegin.snapshot_eq hplay.chronicle hreadable.1 hreadable.2
  obtain ⟨fs, hlist, hfs⟩ := hlast.snapshot_eq hplay.chronicle hcursor hreached
  rw [Log.snapshot, if_neg (by omega)] at hlist
  refine ⟨es, fs, hsnapshot, hlist, ?_⟩
  have hsplit := hplay.chronicle.upTo_append_between htrack.behind.le
  rw [hes, hfs, hdelivered, ← hsplit]
  exact Chronicle.leads (hsplit ▸ hplay.chronicle.upTo _)

/-- A key is listed at its first revision, before it is updated. History is compacted behind the
watcher, which goes on past a placeholder to a second key and to the end of the first one. -/
theorem exists_rebuilds : ∃ (ops : List Op) (calls : List Call) (d : Drive) (first : Log),
    d = (start { log := { indexing := .linkFirst } } 1).run 9 (fun _ => 9) calls ∧
    d.world.Ran { indexing := .linkFirst } ops ∧ first ∈ d.world.states ∧
    Store.compactedTo first = .ok 0 ∧ Store.currentRevision first = .ok 2 ∧
    Store.compactedTo d.world.log = .ok 2 ∧
    (d.delivered.map Entry.revision, d.watcher.cursor) = ([2, 4, 5], 5) ∧
    ∃ es fs, first.snapshot 1 = .ok es ∧ Store.list d.world.log "" 0 d.watcher.cursor = .ok fs ∧
      (Replica.ofList es).Leads d.delivered (Replica.ofList fs) := by
  let ops : List Op :=
    [.create "a" [1] 0, .update "a" [2] 1 0, .fill 3 (by decide), .create "b" [3] 0, .compact 2,
      .delete "a" 2]
  let calls : List Call :=
    [.wait [.commit ⟨1, "a", true, false, 0, 0, 0, [1], []⟩,
      .commit ⟨2, "a", false, false, 1, 1, 0, [2], [1]⟩],
      .poll [], .wait [.fill 3, .commit ⟨4, "b", true, false, 0, 0, 0, [3], []⟩],
      .next 1 [{ acts := [.compact 2, .commit ⟨5, "a", false, true, 1, 2, 0, [], [2]⟩] }] [],
      .poll []]
  let d := (start { log := { indexing := .linkFirst } } 1).run 9 (fun _ => 9) calls
  let first := Log.play { indexing := .linkFirst } (ops.take 2)
  have hran : d.world.Ran { indexing := .linkFirst } ops := by decide +kernel
  have hfirst : first ∈ d.world.states := by decide +kernel
  have hlow : Store.compactedTo first = .ok 0 := by decide +kernel
  have hhigh : Store.currentRevision first = .ok 2 := by decide +kernel
  have hlow' : Store.compactedTo d.world.log = .ok 2 := by decide +kernel
  have hread : (d.delivered.map Entry.revision, d.watcher.cursor) = ([2, 4, 5], 5) := by
    decide +kernel
  have hcursor : 2 ≤ d.watcher.cursor := by
    have heq : d.watcher.cursor = 5 := congrArg Prod.snd hread
    rw [heq]
    decide
  exact ⟨ops, calls, d, first, rfl, hran, hfirst, hlow, hhigh, hlow', hread,
    rebuilds rfl hran hfirst hlow hhigh (by decide) hlow' hcursor
      (Int.le_trans (by decide) hcursor)⟩

end Drive

end RevisionLog
