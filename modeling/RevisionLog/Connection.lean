import RevisionLog.Database

/-!
# Connections

What is done inside a transaction is done on a working copy of the content, which is kept at its
commit. Where no transaction is open every change is kept at once. Savepoints, and statements that
change the settings of a connection, are left out.

* `Connection` — the stored content, and the working copy of an open transaction.
* `Connection.visible`, `Connection.put` — what a statement finds, and what becomes of what it
  leaves.
* `Connection.undone` — how a transaction is given up, by its owner or by the engine.
* `Connection.obey` — the statements that begin and end transactions.
* `Connection.breakOff`, `Connection.refuse` — what a statement that does not come through leaves.
-/

namespace RevisionLog

/-- A connection while it is used. -/
structure Connection where
  stored : Database
  /-- the copy that an open transaction works on -/
  working : Option Database := none
  /-- whether the engine can take back what was done. It cannot do so in memory without a
  journal. -/
  reversible : Bool := true
  deriving DecidableEq, Repr, Inhabited

/-- A statement that begins or ends a transaction. -/
inductive Bracket
  | begin
  | commit
  | rollback
  deriving DecidableEq, Repr

/-- What the engine breaks a statement off with. -/
structure Break where
  fault : Fault
  /-- the whole transaction is given up with it, as where a write is interrupted -/
  severs : Bool := false
  /-- what is left of the statement where nothing can be taken back -/
  leaves : Database → Database := id

namespace Connection

/-- The content that a statement finds. -/
def visible (c : Connection) : Database := c.working.getD c.stored

/-- A changed content: the new working copy, or what is stored from then on. -/
def put (c : Connection) (db : Database) : Connection :=
  match c.working with
  | some _ => { c with working := some db }
  | none => { c with stored := db }

/-- A transaction is open. -/
def begun (c : Connection) : Connection := { c with working := some c.stored }

/-- The open transaction is given up, if there is one. -/
def undone (c : Connection) : Connection :=
  { c with stored := if c.reversible then c.stored else c.visible, working := none }

/-- What a statement does that begins or ends a transaction. -/
def obey (c : Connection) : Bracket → Except Fault Connection
  | .begin => if c.working.isSome then .error .nested else .ok c.begun
  | .commit =>
    match c.working with
    | some db => .ok { c with stored := db, working := none }
    | none => .error (.unbegun "commit")
  | .rollback => if c.working.isSome then .ok c.undone else .error (.unbegun "rollback")

/-- A statement is broken off. -/
def breakOff (c : Connection) (b : Break) : Connection :=
  let left := if c.reversible then c else c.put (b.leaves c.visible)
  if b.severs then left.undone else left

/-- A statement is refused. Where no id is left the engine gives the transaction up. -/
def refuse (c : Connection) (fault : Fault) : Connection := if fault = .full then c.undone else c

variable {c c' : Connection} {db : Database}

@[simp] theorem visible_begun : c.begun.visible = c.stored := rfl

@[simp] theorem reversible_put : (c.put db).reversible = c.reversible := by
  rw [put]
  split <;> rfl

@[simp] theorem reversible_undone : c.undone.reversible = c.reversible := rfl

@[simp] theorem visible_put : (c.put db).visible = db := by
  rw [put]
  split
  · rfl
  · next hworking => simp [visible, hworking]

@[simp] theorem put_visible (c : Connection) : c.put c.visible = c := by
  obtain ⟨stored, _ | working, reversible⟩ := c <;> rfl

@[simp] theorem put_put (c : Connection) (db db' : Database) : (c.put db).put db' = c.put db' := by
  obtain ⟨stored, _ | working, reversible⟩ := c <;> rfl

@[simp] theorem isSome_working_put : (c.put db).working.isSome = c.working.isSome := by
  rw [put]
  split
  · next hworking => simp [hworking]
  · next hworking => simp [hworking]

/-- In an open transaction nothing is stored. -/
theorem stored_put (h : c.working.isSome = true) : (c.put db).stored = c.stored := by
  rw [put]
  split
  · rfl
  · next hworking => simp [hworking] at h

theorem stored_undone (h : c.reversible = true) : c.undone.stored = c.stored := if_pos h

@[simp] theorem reversible_breakOff (c : Connection) (b : Break) :
    (c.breakOff b).reversible = c.reversible := by
  rw [breakOff]
  split <;> split <;> simp

@[simp] theorem reversible_refuse (c : Connection) (fault : Fault) :
    (c.refuse fault).reversible = c.reversible := by
  rw [refuse]
  split <;> simp

theorem reversible_obey {mark : Bracket} (h : c.obey mark = .ok c') :
    c'.reversible = c.reversible := by
  cases mark <;> simp only [obey] at h <;> split at h <;> cases h <;> rfl

/-- Where a statement can be taken back, nothing of one that is broken off is stored. -/
theorem stored_breakOff (h : c.reversible = true) (b : Break) :
    (c.breakOff b).stored = c.stored := by
  simp only [breakOff, h, if_true]
  split
  · exact stored_undone h
  · rfl

theorem stored_refuse (h : c.reversible = true) (fault : Fault) :
    (c.refuse fault).stored = c.stored := by
  rw [refuse]
  split
  · exact stored_undone h
  · rfl

end Connection

end RevisionLog
