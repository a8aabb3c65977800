import RevisionLog.Store

/-!
# Databases

What one file holds: the tables of the log, the version of their layout, and perhaps the table of an
older layout.

* `Database` — the content of a file.
* `Work` — what is done inside a transaction: it changes a working copy of the content, also where
  it fails.
* `Work.onLog` — an operation of the store as work on the content.
-/

namespace RevisionLog

/-- A row of the older layout. -/
structure LegacyRow where
  id : Int
  name : Cell
  value : Cell
  deleted : Cell
  ttl : Cell
  deriving DecidableEq, Repr, Inhabited

/-- A column of the older layout. -/
inductive LegacyColumn
  | id
  | name
  | value
  | deleted
  | ttl
  deriving DecidableEq, Repr

namespace LegacyColumn

def all : List LegacyColumn := [id, name, value, deleted, ttl]

/-- The name of a column. -/
def label : LegacyColumn → String
  | id => "id"
  | name => "name"
  | value => "value"
  | deleted => "del"
  | ttl => "ttl"

/-- Where the statement that reads the older layout names a column. -/
def offset : LegacyColumn → Nat
  | id => 7
  | name => 11
  | value => 17
  | deleted => 24
  | ttl => 29

end LegacyColumn

/-- How the names of an older table are compared. These are the engine's own ways; a table whose
names are compared by a function that somebody registered is left out. -/
inductive Collation where
  /-- byte by byte -/
  | bytes
  /-- without regard to the case of ASCII letters -/
  | caseless
  /-- without regard to blanks at the end -/
  | trimmed
  deriving DecidableEq, Repr, Inhabited

/-- The table of the older layout. -/
structure Legacy where
  rows : List LegacyRow := []
  /-- columns that the table does not have -/
  lacking : List LegacyColumn := []
  collation : Collation := .bytes
  deriving DecidableEq, Repr, Inhabited

/-- The cells of a row of the older layout. Without an id it gets the next one. -/
structure LegacyDraft where
  id : Cell
  name : Cell
  value : Cell
  deleted : Cell
  ttl : Cell
  deriving DecidableEq, Repr, Inhabited

namespace Legacy

/-- The id of a row that brings none. -/
def nextId (legacy : Legacy) : Int := ((legacy.rows.map LegacyRow.id).max?).getD 0 + 1

/-- The id of a new row of a table of this name. -/
def idOf (legacy : Legacy) (table : String) (d : LegacyDraft) : Except Fault Int :=
  if .id ∈ legacy.lacking then .ok legacy.nextId
  else
    match Affinity.integer.apply d.id with
    | .null => .ok legacy.nextId
    | .integer id => if legacy.rows.any (·.id = id) then .error (.takenId (table ++ ".id"))
        else .ok id
    | _ => .error .mismatch

/-- Writes a row to a table of this name. -/
def insert (legacy : Legacy) (table : String) (d : LegacyDraft) : Except Fault Legacy := do
  let id ← legacy.idOf table d
  let row : LegacyRow :=
    { id, name := Affinity.text.apply d.name, value := Affinity.blob.apply d.value
      deleted := Affinity.integer.apply d.deleted, ttl := Affinity.integer.apply d.ttl }
  return { legacy with rows := legacy.rows ++ [row] }

end Legacy

/-- The content of a file. -/
structure Database where
  /-- the tables of the log, once they are made -/
  log : Option Log := none
  /-- the recorded version of the layout -/
  version : Int := 0
  legacy : Option Legacy := none
  deriving DecidableEq, Repr, Inhabited

/-- Work inside a transaction, on a working copy of the content. What it did before it failed is
still done there. -/
abbrev Work := ExceptT Error (StateM Database)

namespace Work

variable {α : Type}

/-- An operation on the log, told by the name of a table where the tables are not made yet. -/
def onLog (op : Log → Except Error (α × Log)) (table : String := logTable) : Work α := do
  let db ← get
  match db.log with
  | none => throw (.query (.noTable table))
  | some log =>
    match op log with
    | .error e => throw e
    | .ok (a, log) => do
      set { db with log := some log }
      return a

/-- A question to the log. -/
def askLog (op : Log → Except Error α) (table : String := logTable) : Work α := do
  match (← get).log with
  | none => throw (.query (.noTable table))
  | some log => liftExcept (op log)
where
  /-- An answer as work that changes nothing. -/
  liftExcept : Except Error α → Work α
    | .ok a => pure a
    | .error e => throw e

/-- Writes a draft. -/
def insert (d : Draft) : Work Int := onLog fun log => Store.ask (log.insert d)

/-- Claims an id. -/
def fill (id : Int) : Work Unit := onLog fun log => (fun log => ((), log)) <$> Store.fill log id

/-- Makes the tables where they are not yet there. -/
def createTables : Work Unit := modify fun db => { db with log := some (db.log.getD {}) }

/-- Carries out the work on a copy of a content, and answers what came of it and the copy. -/
def carryOut (work : Work α) (db : Database) : Except Error α × Database :=
  (ExceptT.run work).run db

end Work

end RevisionLog
