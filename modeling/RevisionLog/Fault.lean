import RevisionLog.Cell

/-!
# Faults

Why the tables refuse a statement, with the message and the code by which each refusal is known.

* `Fault.message` — the words.
* `Fault.code` — the number of a refusal by the tables, or the words of one that has no number.
-/

namespace RevisionLog

/-- A refusal by the tables. -/
inductive Fault
  /-- the statement was stopped -/
  | interrupted
  /-- another connection holds the tables -/
  | locked
  /-- no id is left -/
  | full
  /-- a column that needs a value has none -/
  | missing (column : String)
  /-- the id is taken -/
  | takenId (columns : String)
  /-- the link from the previous revision of the name is taken -/
  | takenLink (columns : String)
  /-- a number was needed -/
  | mismatch
  /-- the pattern is too long to be matched -/
  | longPattern
  | noTable (table : String)
  | noColumn (column statement : String) (offset : Nat)
  /-- the statement ends too early -/
  | incomplete
  /-- a column of a result holds a cell of another class than it is read as -/
  | wrongClass (storage : Cell.Class) (index : Nat) (column : String)
  /-- there is no row to read -/
  | noRow
  /-- a transaction is to begin where one is open already -/
  | nested
  /-- a transaction is to come to an end of this name where none is open -/
  | unbegun (ending : String)
  deriving DecidableEq, Repr

namespace Fault

/-- The words for a refusal. -/
def message : Fault → String
  | interrupted => "interrupted"
  | locked => "database is locked"
  | full => "database or disk is full"
  | missing column => "NOT NULL constraint failed: " ++ column
  | takenId columns => "UNIQUE constraint failed: " ++ columns
  | takenLink columns => "UNIQUE constraint failed: " ++ columns
  | mismatch => "datatype mismatch"
  | longPattern => "LIKE or GLOB pattern too complex"
  | noTable table => "no such table: " ++ table
  | noColumn column statement offset =>
    "no such column: " ++ column ++ " in " ++ statement ++ " at offset " ++ toString offset
  | incomplete => "incomplete input"
  | wrongClass storage index column =>
    "Invalid column type " ++ storage.name ++ " at index: " ++ toString index ++ ", name: " ++
      column
  | noRow => "Query returned no rows"
  | nested => "cannot start a transaction within a transaction"
  | unbegun ending => "cannot " ++ ending ++ " - no transaction is active"

/-- The number of a refusal, where it has one. -/
def number? : Fault → Option Nat
  | interrupted => some 9
  | locked => some 5
  | full => some 13
  | missing _ => some 1299
  | takenId _ => some 1555
  | takenLink _ => some 2067
  | mismatch => some 20
  | longPattern => some 1
  | noTable _ => some 1
  | incomplete => some 1
  | noColumn _ _ _ => none
  | wrongClass _ _ _ => none
  | noRow => none
  | nested => some 1
  | unbegun _ => some 1

/-- The code under which a refusal is recorded. -/
def code (fault : Fault) : String :=
  match fault.number? with
  | some n => toString n
  | none => fault.message

end Fault

end RevisionLog
