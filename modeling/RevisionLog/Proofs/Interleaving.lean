import RevisionLog.Proofs.Operation
import RevisionLog.Watcher

/-!
# What a watcher runs in

A log changes between any two transactions of a watcher: rows of users appear, in any order of their
ids, other watchers claim ids, and history is compacted. Here this is a world in which a watcher
runs, and which remembers every state of the log and every read.

* `Act` — what others do to a log; `Log.Intact.exists_act` — the operations of clients are such
  acts.
* `Log.Persists` — a later state of a log has every row of an earlier one that lies above its floor.
* `World` — a log, what is still to happen to it, and what the watcher did so far.
* `World.Lasting` — all states of a world are states of one log: no two of them have different rows
  under an id that lies above their floors.
-/

namespace RevisionLog

open Store

/-! ## Acts -/

/-- What others do to a log. -/
inductive Act
  /-- a user's row appears that stands for an entry -/
  | commit (e : Entry)
  | fill (id : Int)
  | compact (revision : Int)

/-- The row by which a user's entry is written. -/
def Entry.usersRow (e : Entry) : Row :=
  (Draft.ofUser e.name e.created e.deleted e.createRevision e.prevRevision e.lease e.value
    e.oldValue).toRow e.revision

theorem Entry.isPlain_usersRow (e : Entry) : e.usersRow.IsPlain :=
  Draft.IsUsers.isPlain ⟨_, _, _, _, _, _, _, _, rfl⟩ e.revision

@[simp] theorem Entry.id_usersRow (e : Entry) : e.usersRow.id = e.revision := rfl

theorem Entry.toEntry_usersRow (e : Entry) :
    e.usersRow.toEntry =
      { e with createRevision := if e.created then e.revision else e.createRevision } := by
  rw [usersRow, Draft.toEntry_ofUser]

/-- A user's row may appear: it is no placeholder and follows an earlier revision, and its id is
free and above the floor. -/
def Log.Admits (log : Log) (e : Entry) : Prop :=
  e.isGap = false ∧ e.prevRevision < e.revision ∧ log.floor < e.revision ∧ ∀ s ∈ log.rows,
    s.id ≠ e.usersRow.id

instance (log : Log) (e : Entry) : Decidable (log.Admits e) := inferInstanceAs (Decidable (_ ∧ _))

/-- The log after an act. One that cannot be done changes nothing. -/
def Act.on (log : Log) : Act → Log
  | commit e => if admitted : log.Admits e then log.put e.usersRow admitted.2.2.2 else log
  | fill id =>
    match Store.fill log id with
    | .ok log => log
    | .error _ => log
  | compact revision =>
    match Store.compact log revision with
    | .ok (_, log) => log
    | .error _ => log

namespace Log

variable {log log' : Log}

/-! ## What stays -/

/-- A later state of a log: its floor is no lower, and it has every row above its floor that
was there. -/
structure Persists (before after : Log) : Prop where
  floor_le : before.floor ≤ after.floor
  kept : ∀ e ∈ before.entries, after.floor < e.revision → e ∈ after.entries

theorem Persists.refl (log : Log) : log.Persists log := ⟨Int.le_refl _, fun _ he _ => he⟩

theorem Persists.trans {a b c : Log} (hab : a.Persists b) (hbc : b.Persists c) : a.Persists c where
  floor_le := Int.le_trans hab.floor_le hbc.floor_le
  kept e he hlt := hbc.kept e (hab.kept e he (Int.lt_of_le_of_lt hbc.floor_le hlt)) hlt

theorem persists_put {r : Row} {fresh : ∀ s ∈ log.rows, s.id ≠ r.id} :
    log.Persists (log.put r fresh) where
  floor_le := Int.le_refl _
  kept _ he _ := mem_entries_put.2 (Or.inr he)

namespace Tidy

theorem put (h : log.Tidy) {r : Row} {fresh : ∀ s ∈ log.rows, s.id ≠ r.id} (hplain : r.IsPlain)
    (hback : r.toEntry.prevRevision ≤ r.id) : (log.put r fresh).Tidy where
  plain := forall_rows_put hplain h.plain
  watermark := h.watermark
  backward := forall_entries_put hback h.backward

theorem persists_compact (h : log.Tidy) {revision : Int} (habove : log.floor < revision) :
    log.Persists (log.compact revision).2 where
  floor_le := by
    rw [h.floor_compact habove]
    exact Int.le_of_lt habove
  kept e he hlt := by
    rw [h.floor_compact habove] at hlt
    exact h.mem_entries_compact_of_lt he hlt

/-- A claim leaves a tidy log that is a later state. -/
theorem fill (h : log.Tidy) {id : Int} (hfill : Store.fill log id = .ok log') :
    log'.Tidy ∧ log.Persists log' := by
  obtain ⟨-, fresh, rfl⟩ := fill_eq_ok (ask_eq_ok.1 hfill)
  refine ⟨h.put (Draft.isPlain_placeholder id id) ?_, persists_put⟩
  rw [Draft.toEntry_placeholder]
  exact Int.le_refl id

/-- **An act leaves a tidy log that is a later state.** -/
theorem act (h : log.Tidy) (a : Act) : (a.on log).Tidy ∧ log.Persists (a.on log) := by
  cases a with
  | commit e =>
    rw [Act.on]
    split
    · next admitted =>
      refine ⟨h.put e.isPlain_usersRow ?_, persists_put⟩
      rw [e.toEntry_usersRow]
      exact Int.le_of_lt admitted.2.1
    · exact ⟨h, .refl log⟩
  | fill id =>
    rw [Act.on]
    split
    · next hfill => exact h.fill hfill
    · exact ⟨h, .refl log⟩
  | compact revision =>
    rw [Act.on, h.compact_eq]
    split
    · next hcompact =>
      split at hcompact
      · cases hcompact
      · split at hcompact
        · cases hcompact
          exact ⟨h, .refl log⟩
        · next habove =>
          obtain rfl : (log.compact revision).2 = _ := congrArg Prod.snd (Except.ok.inj hcompact)
          exact ⟨h.compact (Int.not_le.1 habove), h.persists_compact (Int.not_le.1 habove)⟩
    · exact ⟨h, .refl log⟩

end Tidy

/-! ## The operations of clients -/

/-- A row that continues a chain appears by an act. -/
theorem Sound.commit_eq (h : log.Sound) {d : Draft} (hd : log.Continues d) {e : Entry}
    (hrow : e.usersRow = d.toRow (log.reached + 1)) : (Act.commit e).on log = log.written d := by
  have hupcoming : log.upcoming d =
      { e with createRevision := if e.created then e.revision else e.createRevision } := by
    rw [upcoming, ← hrow, e.toEntry_usersRow]
  have hrev : e.revision = log.reached + 1 := congrArg Row.id hrow
  have hreached := h.reached_eq
  have hgap := hd.gap
  have hearlier := h.lt_of_extends (by rw [revision_upcoming]; omega) hd.extends'
  rw [hupcoming] at hgap hearlier
  have hfloor := h.floor_le
  have admitted : log.Admits e := by
    refine ⟨hgap, hearlier, by omega, ?_⟩
    rw [e.id_usersRow, hrev]
    exact fresh_reached
  rw [Act.on, dif_pos admitted]
  simp only [hrow]
  rfl

/-- **Clients are part of what a watcher runs in.** What an operation does to an intact log is
an act. -/
theorem Intact.exists_act (h : log.Intact) (op : Op) :
    ∃ a : Act, (op.perform log).2 = a.on log := by
  rcases h.perform_cases op with ⟨n, log', hperform, hstep⟩ | ⟨e, hperform⟩ <;> rw [hperform]
  · cases hstep with
    | @create name value lease hfree =>
      refine ⟨.commit (.mk (log.reached + 1) name true false 0
        (((log.chain name).getLast?.map Entry.revision).getD 0) lease value []), ?_⟩
      rw [h.commit_eq (continues_birth hfree) rfl]
    | @update name p value lease hhead =>
      refine ⟨.commit
        (.mk (log.reached + 1) p.name false false p.createRevision p.revision lease value p.value),
        ?_⟩
      rw [h.commit_eq (continues_sequel hhead) rfl]
    | @delete name p hhead =>
      refine ⟨.commit
        (.mk (log.reached + 1) p.name false true p.createRevision p.revision 0 [] p.value), ?_⟩
      rw [h.commit_eq (continues_sequel hhead) rfl]
    | @compacted revision hle hbelow =>
      refine ⟨.compact revision, ?_⟩
      rw [Act.on, h.compact_eq, if_neg (Int.not_lt.2 hle), if_pos hbelow]
    | @compact revision habove hle =>
      refine ⟨.compact revision, ?_⟩
      rw [Act.on, h.compact_eq, if_neg (Int.not_lt.2 hle), if_neg (Int.not_le.2 habove)]
    | @fill _ _ fresh hfree =>
      refine ⟨.fill n, ?_⟩
      rw [Act.on, Store.fill, fill_of_free fresh hfree]
      rfl
  · -- nothing changes, as by a compaction up to the floor
    refine ⟨.compact log.floor, ?_⟩
    rw [Act.on, h.compact_eq, if_neg (Int.not_lt.2 log.floor_le_current), if_pos (Int.le_refl _)]

end Log

/-! ## Reads -/

/-- The revisions of an error that tells that history is gone. -/
def Error.compaction? : Error → Option (Int × Int)
  | compacted requested watermark => some (requested, watermark)
  | _ => none

/-- No refusal of the tables tells that history is gone. -/
theorem compaction?_of_ask {α : Type} {answer : Except Fault α} {e : Error}
    (h : ask answer = .error e) : e.compaction? = none := by
  rcases answer with fault | a
  · cases h
    cases fault <;> rfl
  · cases h

/-- What happens before a transaction of a watcher, and whether the transaction comes to nothing. It
never does so because history is gone: that is what its work finds out. -/
structure Turn where
  acts : List Act := []
  failure : Option Error := none
  genuine : failure.bind Error.compaction? = none := by rfl

/-- A read of a watcher: at a position, of a state of the log, and up to how many rows. -/
structure Reading where
  position : Int
  log : Log
  batch : Nat

namespace Reading

/-- What came of a read. -/
def answer (r : Reading) : Except Error (List Entry) := Store.since r.log r.position r.batch

/-- Whether a read gave an entry. -/
def Gave (r : Reading) (e : Entry) : Prop := ∃ es, r.answer = .ok es ∧ e ∈ es

/-- Whether the position of a read was below the floor. -/
def isBelow (r : Reading) : Bool := r.position < r.log.floor

/-- What a read told of history that is gone. -/
def told? (r : Reading) : Option (Int × Int) :=
  match r.answer with
  | .ok _ => none
  | .error e => e.compaction?

end Reading

namespace Log

/-- The entries that a read above a position answers. -/
def ahead (log : Log) (position : Int) (batch : Nat) : List Entry :=
  let es := log.entries.filter (position < ·.revision)
  if (batch : Int) ≤ Revision.greatest then es.take batch else es

/-- Two states of a log do not have different rows under an id above their floors. -/
def Agrees (a b : Log) : Prop :=
  ∀ e ∈ a.entries, ∀ f ∈ b.entries, e.revision = f.revision → a.floor < e.revision →
    b.floor < f.revision → e = f

variable {log : Log}

theorem mem_of_mem_ahead {position : Int} {batch : Nat} {e : Entry}
    (he : e ∈ log.ahead position batch) : e ∈ log.entries ∧ position < e.revision := by
  have hmem : e ∈ log.entries.filter (position < ·.revision) := by
    unfold ahead at he
    dsimp only at he
    split at he
    · exact List.mem_of_mem_take he
    · exact he
  obtain ⟨hlog, hlt⟩ := List.mem_filter.1 hmem
  exact ⟨hlog, of_decide_eq_true hlt⟩

/-- A read below the floor is refused, and any other one answers what is ahead. -/
theorem Tidy.since_eq (h : log.Tidy) (position : Int) (batch : Nat) :
    Store.since log position batch =
      if position < log.floor then .error (.compacted position log.floor)
          else .ok (log.ahead position batch) := by
  have hafter : log.after position batch = .ok (log.ahead position batch) := by
    have hmap : (log.rows.filter (position < ·.id)).map Row.toEntry =
        log.entries.filter (position < ·.revision) :=
      h.map_filter_rows fun _ _ _ => rfl
    rw [Log.after, ahead]
    split
    · rw [mapM_entry fun r hr => h.plain r (List.mem_filter.1 (List.mem_of_mem_take hr)).1,
        List.map_take, hmap]
    · rw [mapM_entry fun r hr => h.plain r (List.mem_filter.1 hr).1, hmap]
  rw [Store.since, h.store_compactedTo, hafter]
  simp only [bind, Except.bind]
  split
  · rfl
  · rfl

end Log

namespace Reading

variable {r : Reading}

/-- What a read gave is a row of the log, above the position and so above the floor. -/
theorem of_gave (h : r.log.Tidy) {e : Entry} (hgave : r.Gave e) :
    e ∈ r.log.entries ∧ r.position < e.revision ∧ r.log.floor < e.revision := by
  obtain ⟨es, hanswer, he⟩ := hgave
  rw [answer, h.since_eq] at hanswer
  split at hanswer
  · cases hanswer
  · next hfloor =>
    cases hanswer
    obtain ⟨hmem, hlt⟩ := Log.mem_of_mem_ahead he
    exact ⟨hmem, hlt, by omega⟩

/-- A read tells that history is gone exactly where its position is below the floor. -/
theorem told?_eq (h : r.log.Tidy) :
    r.told? = if r.isBelow then some (r.position, r.log.floor) else none := by
  rw [told?, answer, h.since_eq]
  by_cases hbelow : r.position < r.log.floor
  · have hread : r.isBelow = true := decide_eq_true hbelow
    rw [if_pos hbelow, if_pos hread]
    rfl
  · have hread : ¬r.isBelow = true := by simpa [isBelow] using hbelow
    rw [if_neg hbelow, if_neg hread]

end Reading

/-! ## Worlds -/

/-- A log and its earlier states, what is still to happen before each transaction and at each pause,
and the reads of the watcher that runs in it. -/
structure World where
  log : Log
  past : List Log := []
  turns : List Turn := []
  rests : List Rest := []
  readings : List Reading := []

namespace World

/-- All states of the log so far, the last one first. -/
def states (world : World) : List Log := world.log :: world.past

/-- The world with a new state of the log. -/
def move (world : World) (log : Log) : World := { world with log, past := world.states }

/-- The world after acts of others. -/
def act (world : World) (acts : List Act) : World :=
  acts.foldl (fun world a => world.move (a.on world.log)) world

/-- Begins a transaction: the acts before it happen. Where nothing more is told, nothing happens. -/
def takeTurn : StateM World (Option Error) := fun world =>
  match world.turns with
  | [] => (none, world)
  | turn :: turns => (turn.failure, { world with turns }.act turn.acts)

/-- Reads rows. -/
def read (batch : Nat) (position : Int) : StateM World (Except Error (List Entry)) := fun world =>
  match takeTurn world with
  | (some e, world) => (.error e, world)
  | (none, world) =>
    let reading : Reading := { position, log := world.log, batch }
    (reading.answer, { world with readings := world.readings ++ [reading] })

/-- Claims an id. -/
def claim (id : Int) : StateM World (Except Error Unit) := fun world =>
  match takeTurn world with
  | (some e, world) => (.error e, world)
  | (none, world) =>
    match Store.fill world.log id with
    | .error e => (.error e, world)
    | .ok log => (.ok (), world.move log)

/-- How a watcher in a world reaches the log. -/
def source (batch : Nat) : Watcher.Source (StateM World) where
  read := read batch
  claim := claim

/-- A pause. Where nothing more is told, it just ends. -/
def pause : StateM World Rest := fun world =>
  match world.rests with
  | [] => (.over, world)
  | rest :: rests => (rest, { world with rests })

/-- A bound that hangs on the world. -/
def bounded (bound : World → Nat) : StateM World Nat := fun world => (bound world, world)

/-! ## What lasts -/

/-- The states of a world are states of one log, and its reads were of these. -/
structure Lasting (world : World) : Prop where
  tidy : ∀ log ∈ world.states, log.Tidy
  persists : ∀ log ∈ world.states, log.Persists world.log
  agrees : ∀ a ∈ world.states, ∀ b ∈ world.states, a.Agrees b
  read : ∀ r ∈ world.readings, r.log ∈ world.states

theorem lasting_start {log : Log} (h : log.Tidy) : Lasting { log } where
  tidy a ha := by
    rw [List.mem_singleton.1 ha]
    exact h
  persists a ha := by
    rw [List.mem_singleton.1 ha]
    exact .refl log
  agrees a ha b hb e he f hf hrev _ _ := by
    rw [List.mem_singleton.1 ha] at he
    rw [List.mem_singleton.1 hb] at hf
    exact Log.eq_of_revision_eq he hf hrev
  read r hr := by cases hr

/-- Whether a read of the watcher gave an entry. -/
def HasRead (world : World) (e : Entry) : Prop := ∃ r ∈ world.readings, r.Gave e

/-- A world after a world, with so many more reads. -/
structure Leads (world world' : World) (new : List Reading) : Prop where
  lasting : world'.Lasting
  readings : world'.readings = world.readings ++ new

variable {world world' world'' : World} {new new' : List Reading}

theorem Leads.refl (h : world.Lasting) : world.Leads world [] := ⟨h, (List.append_nil _).symm⟩

theorem Leads.trans (h : world.Leads world' new) (h' : world'.Leads world'' new') :
    world.Leads world'' (new ++ new') :=
  ⟨h'.lasting, by rw [h'.readings, h.readings, List.append_assoc]⟩

theorem Leads.hasRead (h : world.Leads world' new) {e : Entry} (he : world.HasRead e) :
    world'.HasRead e := by
  obtain ⟨r, hr, hgave⟩ := he
  exact ⟨r, h.readings ▸ List.mem_append_left _ hr, hgave⟩

namespace Lasting

/-- **The next state.** A later state of the log is one of the same log. -/
theorem move (h : world.Lasting) {log : Log} (htidy : log.Tidy)
    (hpersists : world.log.Persists log) : world.Leads (world.move log) [] := by
  have hlater : ∀ a ∈ (world.move log).states, a.Persists log := by
    intro a ha
    rcases List.mem_cons.1 ha with rfl | ha
    · exact .refl _
    · exact (h.persists a ha).trans hpersists
  refine ⟨?_, (List.append_nil _).symm⟩
  refine
    { tidy := ?tidy
      persists := hlater
      agrees := ?agrees
      read := fun r hr => List.mem_cons_of_mem _ (h.read r hr) }
  case tidy =>
    intro a ha
    rcases List.mem_cons.1 ha with rfl | ha
    · exact htidy
    · exact h.tidy a ha
  case agrees =>
    intro a ha b hb e he f hf hrev hae hbf
    -- where one of the two is the new state, the row of the other one is still there
    rcases List.mem_cons.1 ha with rfl | ha
    · exact Log.eq_of_revision_eq he ((hlater b hb).kept f hf (hrev ▸ hae)) hrev
    · rcases List.mem_cons.1 hb with rfl | hb
      · exact Log.eq_of_revision_eq ((hlater a (List.mem_cons_of_mem _ ha)).kept e he (hrev ▸ hbf))
          hf hrev
      · exact h.agrees a ha b hb e he f hf hrev hae hbf

theorem act (h : world.Lasting) (acts : List Act) : world.Leads (world.act acts) [] := by
  induction acts generalizing world with
  | nil => exact .refl h
  | cons a acts ih =>
    obtain ⟨htidy, hpersists⟩ := (h.tidy world.log List.mem_cons_self).act a
    have hmove := h.move htidy hpersists
    exact hmove.trans (ih hmove.lasting)

/-- What is still to happen makes no difference. -/
theorem replan (h : world.Lasting) (turns : List Turn) (rests : List Rest) :
    ({ world with turns, rests } : World).Lasting where
  tidy := h.tidy
  persists := h.persists
  agrees := h.agrees
  read := h.read

/-- A transaction begins. -/
theorem takeTurn (h : world.Lasting) {failure : Option Error}
    (hturn : World.takeTurn world = (failure, world')) :
    world.Leads world' [] ∧ failure.bind Error.compaction? = none := by
  unfold World.takeTurn at hturn
  split at hturn
  · cases hturn
    exact ⟨.refl h, rfl⟩
  · next turn turns _ =>
    cases hturn
    have hact := (h.replan turns world.rests).act turn.acts
    exact ⟨⟨hact.lasting, hact.readings⟩, turn.genuine⟩

/-- A read that comes to pass is remembered. -/
theorem readRows (h : world.Lasting) {batch : Nat} {position : Int}
    {answer : Except Error (List Entry)}
    (hread : World.read batch position world = (answer, world')) :
    (∃ e, answer = .error e ∧ e.compaction? = none ∧ world.Leads world' []) ∨
      ∃ r : Reading, r.position = position ∧ answer = r.answer ∧ world.Leads world' [r] := by
  rcases hturn : World.takeTurn world with ⟨_ | e, between⟩ <;> unfold World.read at hread <;>
    rw [hturn] at hread <;> obtain ⟨hleads, hgenuine⟩ := h.takeTurn hturn <;> cases hread
  · refine Or.inr ⟨_, rfl, rfl, ?_, by rw [hleads.readings, List.append_nil]⟩
    refine
      { tidy := hleads.lasting.tidy
        persists := hleads.lasting.persists
        agrees := hleads.lasting.agrees
        read := ?_ }
    intro r hr
    rcases List.mem_append.1 hr with hr | hr
    · exact hleads.lasting.read r hr
    · rw [List.mem_singleton.1 hr]
      exact List.mem_cons_self
  · exact Or.inl ⟨e, rfl, hgenuine, hleads⟩

/-- A claim that comes to pass is a later state of the log. -/
theorem claim (h : world.Lasting) {id : Int} {answer : Except Error Unit}
    (hclaim : World.claim id world = (answer, world')) :
    world.Leads world' [] ∧ ∀ e, answer = .error e → e.compaction? = none := by
  rcases hturn : World.takeTurn world with ⟨_ | e, between⟩ <;> unfold World.claim at hclaim <;>
    rw [hturn] at hclaim <;> obtain ⟨hleads, hgenuine⟩ := h.takeTurn hturn
  · dsimp only at hclaim
    rcases hfill : Store.fill between.log id with e | log <;> rw [hfill] at hclaim <;> cases hclaim
    · refine ⟨hleads, ?_⟩
      rintro _ ⟨⟩
      exact compaction?_of_ask hfill
    · obtain ⟨htidy, hpersists⟩ := (hleads.lasting.tidy _ List.mem_cons_self).fill hfill
      refine ⟨hleads.trans (hleads.lasting.move htidy hpersists), ?_⟩
      rintro _ ⟨⟩
  · cases hclaim
    refine ⟨hleads, ?_⟩
    rintro _ ⟨⟩
    exact hgenuine

/-- A pause changes nothing. -/
theorem pause (h : world.Lasting) {rest : Rest} (hpause : World.pause world = (rest, world')) :
    world.Leads world' [] := by
  unfold World.pause at hpause
  split at hpause
  · cases hpause
    exact .refl h
  · cases hpause
    exact ⟨h.replan world.turns _, (List.append_nil _).symm⟩

/-- What was read is a row of a state of the log above its floor. -/
theorem of_hasRead (h : world.Lasting) {e : Entry} (he : world.HasRead e) :
    ∃ log ∈ world.states, e ∈ log.entries ∧ log.floor < e.revision := by
  obtain ⟨r, hr, hgave⟩ := he
  have hstate := h.read r hr
  obtain ⟨hmem, -, hfloor⟩ := r.of_gave (h.tidy _ hstate) hgave
  exact ⟨r.log, hstate, hmem, hfloor⟩

/-- What was read under an id is what any state of the log has there above its floor. -/
theorem eq_of_hasRead (h : world.Lasting) {e : Entry} (he : world.HasRead e) {log : Log}
    (hlog : log ∈ world.states) {f : Entry} (hf : f ∈ log.entries) (hfloor : log.floor < f.revision)
    (hrev : e.revision = f.revision) : e = f := by
  obtain ⟨log', hlog', hrow, hfloor'⟩ := h.of_hasRead he
  exact h.agrees log' hlog' log hlog e hrow f hf hrev hfloor' hfloor

end Lasting

end World

end RevisionLog
