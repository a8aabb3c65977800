import RevisionLog.Proofs.Operation

/-!
# Scripts

What is done inside a transaction, statement by statement. The engine may refuse a statement or
break it off, and may give the whole transaction up with it. A script is told so and goes on as it
likes; what it does behind the end of its transaction is kept at once.

* `Work.kept` — what a transaction keeps of its work.
* `Script` — statements, each chosen by the answers to those before it, and an end.
* `Script.play` — what comes of a script, given what the engine breaks off.
* `Script.exec`, `Script.ofWork` — a statement whose error ends the script; any work as one of
  these.
* `Script.Heeds`, `Script.Propagates` — scripts that end at an error, and those that end in one.
* `Script.Heeds.stored_play` — of a script that heeds errors nothing is kept before the commit.
* `Script.Propagates.play_of_ok` — a script that came through did what it does undisturbed.
* `Script.Tells`, `Script.Tells.of_error` — what a script that fails can tell.
-/

namespace RevisionLog

/-! ## What a transaction keeps -/

namespace Work

variable {α β : Type}

/-- What a transaction keeps of its work: nothing where it fails. -/
def kept (work : Work α) (db : Database) : Except Error (α × Database) :=
  match work.carryOut db with
  | (.ok a, db') => .ok (a, db')
  | (.error e, _) => .error e

theorem kept_eq_ok {work : Work α} {db db' : Database} {a : α} :
    work.kept db = .ok (a, db') ↔ work.carryOut db = (.ok a, db') := by
  rw [kept]
  rcases work.carryOut db with ⟨e | b, between⟩ <;> simp

theorem kept_get (db : Database) : (get : Work Database).kept db = .ok (db, db) := rfl

theorem kept_bind (work : Work α) (next : α → Work β) (db : Database) :
    (work >>= next).kept db =
      match work.kept db with
      | .ok (a, db') => (next a).kept db'
      | .error e => .error e := by
  simp only [kept]
  rcases hwork : work.carryOut db with ⟨e | a, db'⟩
  · rw [carryOut_bind_of_error hwork]
  · rw [carryOut_bind_of_ok hwork]

end Work

/-! ## Scripts -/

/-- What is done inside a transaction. Each statement is chosen by the answers to those
before it. -/
inductive Script (α : Type) : Type 1
  | finish (a : α)
  | fail (e : Error)
  /-- the script breaks down -/
  | panic
  | step {β : Type} (statement : Database → Except Fault (β × Database))
      (next : Except Fault β → Script α)
  /-- a statement that begins or ends a transaction -/
  | bracket (b : Bracket) (next : Except Fault Unit → Script α)

namespace Script

variable {α : Type}

/-- What comes of a script. The first of `breaks` is what the engine breaks its first statement off
with, if it does, and so on; behind their end nothing is broken off. -/
def play : Script α → (breaks : List (Option Break)) → Connection → Except Error α × Connection
  | finish a, _, c => (.ok a, c)
  | fail e, _, c => (.error e, c)
  | panic, _, c => (.error .panicked, c)
  | step statement next, breaks, c =>
    match breaks.head?.join with
    | some b => (next (.error b.fault)).play breaks.tail (c.breakOff b)
    | none =>
      match statement c.visible with
      | .error fault => (next (.error fault)).play breaks.tail (c.refuse fault)
      | .ok (b, db) => (next (.ok b)).play breaks.tail (c.put db)
  | bracket mark next, breaks, c =>
    match breaks.head?.join with
    | some b => (next (.error b.fault)).play breaks.tail (c.breakOff b)
    | none =>
      match c.obey mark with
      | .error fault => (next (.error fault)).play breaks.tail c
      | .ok c => (next (.ok ())).play breaks.tail c

/-- What a script makes of the content that it finds, if nothing is broken off and it goes well. -/
def kept (script : Script α) (c : Connection) : Except Error (α × Database) :=
  match script.play [] c with
  | (.ok a, c) => .ok (a, c.visible)
  | (.error e, _) => .error e

/-- A statement without which the script does not go on: its error ends the script, which
tells so. -/
def exec {β : Type} (statement : Database → Except Fault (β × Database)) (tell : Fault → Error)
    (next : β → Script α) : Script α :=
  step statement fun
    | .ok b => next b
    | .error fault => fail (tell fault)

/-- A statement on the log. -/
def onLog {β : Type} (op : Log → Except Fault (β × Log)) (db : Database) :
    Except Fault (β × Database) :=
  match db.log with
  | none => .error (.noTable logTable)
  | some log => (op log).map fun (b, log) => (b, { db with log := some log })

/-- Any work is a script. -/
def ofWork (work : Work α) : Script α :=
  exec (fun db => .ok (work.carryOut db)) .ofFault fun
    | .ok a => finish a
    | .error e => fail e

section Play

variable {β : Type} {statement : Database → Except Fault (β × Database)} {tell : Fault → Error}
  {next : β → Script α} {breaks : List (Option Break)} {c : Connection}

/-- A statement that is broken off. -/
theorem play_exec_of_broken {b : Break} (hbroken : breaks.head?.join = some b) :
    (exec statement tell next).play breaks c = (.error (tell b.fault), c.breakOff b) := by
  rw [exec, play, hbroken]
  rfl

/-- A statement that is let through is refused, or the script goes on. -/
theorem play_exec (hthrough : breaks.head?.join = none) :
    (exec statement tell next).play breaks c =
      match statement c.visible with
      | .error fault => (.error (tell fault), c.refuse fault)
      | .ok (b, db) => (next b).play breaks.tail (c.put db) := by
  rw [exec, play, hthrough]
  dsimp only
  rcases statement c.visible with fault | ⟨b, db⟩ <;> rfl

/-- What is kept of a script of which nothing is broken off. -/
theorem kept_exec :
    (exec statement tell next).kept c =
      match statement c.visible with
      | .error fault => .error (tell fault)
      | .ok (b, db) => (next b).kept (c.put db) := by
  rw [kept, play_exec rfl]
  rcases statement c.visible with fault | ⟨b, db⟩ <;> rfl

theorem play_ofWork (work : Work α) (c : Connection) :
    (ofWork work).play [] c =
      ((work.carryOut c.visible).1, c.put (work.carryOut c.visible).2) := by
  rw [ofWork, play_exec rfl]
  dsimp only
  rcases work.carryOut c.visible with ⟨e | a, db⟩ <;> rfl

theorem kept_ofWork (work : Work α) (c : Connection) :
    (ofWork work).kept c = work.kept c.visible := by
  rw [kept, Work.kept, play_ofWork]
  rcases work.carryOut c.visible with ⟨e | a, db⟩
  · rfl
  · simp

end Play

/-- Whether the engine can take something back does not change. -/
theorem reversible_play (script : Script α) (breaks : List (Option Break)) (c : Connection) :
    (script.play breaks c).2.reversible = c.reversible := by
  induction script generalizing breaks c with
  | finish a => rfl
  | fail e => rfl
  | panic => rfl
  | step statement next ih =>
    rw [play]
    split
    · rw [ih, Connection.reversible_breakOff]
    · split
      · rw [ih, Connection.reversible_refuse]
      · rw [ih, Connection.reversible_put]
  | bracket mark next ih =>
    rw [play]
    split
    · rw [ih, Connection.reversible_breakOff]
    · split
      · rw [ih]
      · next c' hobey => rw [ih, Connection.reversible_obey hobey]

/-! ## Scripts that end at an error -/

/-- Nothing more is carried out. -/
def IsEnd : Script α → Prop
  | finish _ => True
  | fail _ => True
  | panic => True
  | _ => False

/-- Nothing more is carried out, and it does not end well. -/
def IsFailure : Script α → Prop
  | fail _ => True
  | panic => True
  | _ => False

/-- Every error of a statement brings the script to an end of some kind, and it neither begins nor
ends a transaction itself. -/
def Upon (ending : Script α → Prop) : Script α → Prop
  | step _ next => (∀ fault, ending (next (.error fault))) ∧ ∀ b, (next (.ok b)).Upon ending
  | bracket _ _ => False
  | _ => True

/-- After an error nothing more is carried out. -/
def Heeds (script : Script α) : Prop := script.Upon IsEnd

/-- Every error is passed on. -/
def Propagates (script : Script α) : Prop := script.Upon IsFailure

variable {script : Script α} {breaks : List (Option Break)} {c c' : Connection} {a : α}

theorem IsEnd.play (h : script.IsEnd) : (script.play breaks c).2 = c := by
  cases script <;> first | rfl | exact h.elim

theorem IsFailure.isEnd (h : script.IsFailure) : script.IsEnd := by
  cases script <;> first | exact h | exact h.elim

theorem IsFailure.play_ne (h : script.IsFailure) : script.play breaks c ≠ (.ok a, c') := by
  cases script with
  | fail e => exact fun hplay => nomatch hplay
  | panic => exact fun hplay => nomatch hplay
  | _ => exact h.elim

theorem Propagates.heeds (h : script.Propagates) : script.Heeds := by
  induction script with
  | step statement next ih => exact ⟨fun fault => (h.1 fault).isEnd, fun b => ih (.ok b) (h.2 b)⟩
  | bracket mark next => exact h
  | _ => trivial

theorem propagates_exec {β : Type} {statement : Database → Except Fault (β × Database)}
    {tell : Fault → Error} {next : β → Script α} (h : ∀ b, (next b).Propagates) :
    (exec statement tell next).Propagates :=
  ⟨fun _ => trivial, h⟩

theorem propagates_ofWork (work : Work α) : (ofWork work).Propagates := by
  refine propagates_exec fun outcome => ?_
  rcases outcome with e | a <;> trivial

/-- **A script that heeds errors keeps to its transaction**: nothing is stored before the commit. -/
theorem Heeds.stored_play (h : script.Heeds) (hreversible : c.reversible = true)
    (hopen : c.working.isSome = true) : (script.play breaks c).2.stored = c.stored := by
  induction script generalizing breaks c with
  | finish b => rfl
  | fail e => rfl
  | panic => rfl
  | bracket mark next => exact h.elim
  | step statement next ih =>
    rw [play]
    split
    · next b _ =>
      rw [(h.1 b.fault).play]
      exact Connection.stored_breakOff hreversible b
    · split
      · next fault _ =>
        rw [(h.1 fault).play]
        exact Connection.stored_refuse hreversible fault
      · next b db _ =>
        have hrest : ((next (.ok b)).play breaks.tail (c.put db)).2.stored = (c.put db).stored :=
          ih (.ok b) (h.2 b) (by simpa using hreversible) (by simpa using hopen)
        exact hrest.trans (Connection.stored_put hopen)

/-- What such a script did is gone when its transaction is given up. -/
theorem Heeds.undone_play (h : script.Heeds) (breaks : List (Option Break)) (db : Database) :
    (script.play breaks (Connection.begun { stored := db })).2.undone.stored = db := by
  rw [Connection.stored_undone (reversible_play _ _ _)]
  exact h.stored_play rfl rfl

/-- **A script that came through**, and passes every error on, did what it does when nothing is
broken off, and its transaction is open as it was. -/
theorem Propagates.play_of_ok (h : script.Propagates) (hplay : script.play breaks c = (.ok a, c')) :
    script.play [] c = (.ok a, c') ∧ c'.working.isSome = c.working.isSome := by
  induction script generalizing breaks c with
  | finish b =>
    cases hplay
    exact ⟨rfl, rfl⟩
  | fail e => cases hplay
  | panic => cases hplay
  | bracket mark next => exact h.elim
  | step statement next ih =>
    rw [play] at hplay
    rcases hhead : breaks.head?.join with _ | b <;> rw [hhead] at hplay <;> dsimp only at hplay
    · rcases hstatement : statement c.visible with fault | ⟨b, db⟩ <;> rw [hstatement] at hplay
      · exact absurd hplay (h.1 fault).play_ne
      · obtain ⟨hquiet, hopen⟩ := ih (.ok b) (h.2 b) hplay
        refine ⟨?_, hopen.trans Connection.isSome_working_put⟩
        rw [play, List.head?_nil, Option.join_none, List.tail_nil]
        dsimp only
        rw [hstatement]
        exact hquiet
    · exact absurd hplay (h.1 b.fault).play_ne

/-- A transaction of a script of which nothing is broken off is one of the work that it is. -/
theorem Propagates.conduct_eq (h : script.Propagates) {work : Work α}
    (hkept : ∀ c : Connection, script.kept c = work.kept c.visible) (looks : Transaction.Looks)
    (entry begin commit : Except Error Unit) (db : Database) :
    Transaction.conduct looks entry begin commit (script.play []) db =
      Transaction.run looks entry begin commit work db := by
  have hsame := hkept (Connection.begun { stored := db })
  have hundone := h.heeds.undone_play [] db
  rw [kept, Work.kept, Connection.visible_begun] at hsame
  rw [Transaction.run_eq, Transaction.conduct]
  simp only [Transaction.perform]
  rcases hplay : script.play [] (Connection.begun { stored := db }) with ⟨e | a, c⟩ <;>
    rcases hwork : work.carryOut db with ⟨f | b, changed⟩ <;> rw [hplay] at hsame hundone <;>
    rw [hwork] at hsame <;> cases hsame
  · dsimp only
    rw [hundone]
    rfl
  · obtain ⟨changed, hopen⟩ := Option.isSome_iff_exists.1 (h.play_of_ok hplay).2
    simp only [hundone, Connection.obey, Connection.visible, hopen]
    rcases Transaction.stop looks.start with e | _
    · rfl
    rcases Transaction.enter looks entry begin with e | _
    · rfl
    rcases Transaction.stop looks.committing with e | _
    · rfl
    rcases commit with e | _ <;> rfl

/-! ## What a script tells -/

/-- Every error is passed on, and whatever the script fails with has a property, but for
interruptions, which are told as such. It is never a statement itself that answers with one. -/
def Tells (P : Error → Prop) : Script α → Prop
  | finish _ => True
  | fail e => P e
  | panic => P .panicked
  | step statement next =>
    (∀ db, statement db ≠ .error .interrupted) ∧
      (∀ fault, ∃ e, next (.error fault) = fail e ∧
        (fault = .interrupted → e.isInterruption = true) ∧ (fault ≠ .interrupted → P e)) ∧
      ∀ b, (next (.ok b)).Tells P
  | bracket _ _ => False

theorem Tells.propagates {P : Error → Prop} (h : script.Tells P) : script.Propagates := by
  induction script with
  | step statement next ih =>
    refine ⟨fun fault => ?_, fun b => ih (.ok b) (h.2.2 b)⟩
    obtain ⟨e, he, -⟩ := h.2.1 fault
    rw [he]
    trivial
  | bracket mark next => exact h
  | _ => trivial

/-- **A script that fails** tells what it can tell, or a statement of it was interrupted. -/
theorem Tells.of_error {P : Error → Prop} (htells : script.Tells P) {e : Error}
    (h : script.play breaks c = (.error e, c')) :
    P e ∨ e.isInterruption = true ∧
      some Fault.interrupted ∈ breaks.map (Option.map Break.fault) := by
  induction script generalizing breaks c with
  | finish b => cases h
  | fail e' =>
    cases h
    exact Or.inl htells
  | panic =>
    cases h
    exact Or.inl htells
  | bracket mark next => exact htells.elim
  | step statement next ih =>
    obtain ⟨hstatements, htold, hrest⟩ := htells
    rw [play] at h
    rcases hhead : breaks.head?.join with _ | b <;> rw [hhead] at h <;> dsimp only at h
    · rcases hstatement : statement c.visible with fault | ⟨b, db⟩ <;> rw [hstatement] at h
      · obtain ⟨e', hnext, -, hP⟩ := htold fault
        dsimp only at h
        rw [hnext] at h
        cases h
        refine Or.inl (hP ?_)
        rintro rfl
        exact hstatements _ hstatement
      · rcases ih (.ok b) (hrest b) h with htail | ⟨hkind, hmem⟩
        · exact Or.inl htail
        · rw [List.map_tail] at hmem
          exact Or.inr ⟨hkind, List.mem_of_mem_tail hmem⟩
    · obtain ⟨e', hnext, hinterrupted, hP⟩ := htold b.fault
      rw [hnext] at h
      cases h
      by_cases hfault : b.fault = .interrupted
      · refine Or.inr ⟨hinterrupted hfault, List.mem_map.2 ⟨some b, ?_, congrArg some hfault⟩⟩
        rcases breaks with _ | ⟨first, breaks⟩
        · cases hhead
        · obtain rfl : first = some b := hhead
          exact List.mem_cons_self
      · exact Or.inl (hP hfault)

end Script

end RevisionLog
