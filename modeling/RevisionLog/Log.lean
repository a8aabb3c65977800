import RevisionLog.Fault
import RevisionLog.Log.Row
import RevisionLog.Statements

/-!
# The log

The table of rows together with what is kept beside it: the memory of ids once given, the watermark
below which history is gone, and the indices.

* `Log` — rows in strictly increasing order of their ids, so that no id occurs twice.
* `Log.nextId?` — the id of the next row: one above every id there is and every id there ever was.
* `Log.insert` — writes a draft, or tells which rule of the table it breaks.
* `Log.retain` — takes rows away.
-/

namespace RevisionLog

/-- The indices of the table, which come and go as a pair: one of names, and one that lets a
revision of a name be extended by one row only. The two pairs differ in the order of the columns of
the latter. -/
inductive Indexing
  /-- there are none -/
  | unindexed
  | nameFirst
  | linkFirst
  deriving DecidableEq, Repr, Inhabited

namespace Indexing

/-- The columns of the index that keeps links unique, where there is one. -/
def linkColumns? : Indexing → Option (List String)
  | unindexed => none
  | nameFirst => some ["name", "prev_revision"]
  | linkFirst => some ["prev_revision", "name"]

end Indexing

/-- No rows are in order of their ids. -/
theorem Row.ordered_nil : ([] : List Row).Pairwise (·.id < ·.id) := .nil

/-- A table of rows and what is kept beside it. -/
structure Log where
  rows : List Row := []
  /-- ids strictly increase -/
  ordered : rows.Pairwise (·.id < ·.id) := by exact Row.ordered_nil
  /-- the greatest id ever written, once there was a row -/
  sequence : Option Int := none
  /-- the stored watermark -/
  watermark : Option Cell := none
  indexing : Indexing := .unindexed
  deriving DecidableEq, Repr

namespace Log

instance : Inhabited Log := ⟨{}⟩

/-- The ids of the rows. -/
def ids (log : Log) : List Int := log.rows.map Row.id

/-- The greatest id there is. -/
def greatest? (log : Log) : Option Int := log.ids.max?

/-- The row of an id. -/
def row? (log : Log) (id : Int) : Option Row := log.rows.find? (·.id = id)

/-! ## Writing -/

/-- Puts a row among rows in order of ids. -/
def place (r : Row) : List Row → List Row
  | [] => [r]
  | s :: rows => if r.id < s.id then r :: s :: rows else s :: place r rows

theorem mem_place {r s : Row} {rows : List Row} : s ∈ place r rows ↔ s = r ∨ s ∈ rows := by
  induction rows with
  | nil => simp [place]
  | cons t rows ih =>
    unfold place
    split
    · simp
    · simp [ih, or_left_comm]

theorem pairwise_place {r : Row} {rows : List Row} (ordered : rows.Pairwise (·.id < ·.id))
    (fresh : ∀ s ∈ rows, s.id ≠ r.id) : (place r rows).Pairwise (·.id < ·.id) := by
  induction rows with
  | nil => simp [place]
  | cons s rows ih =>
    obtain ⟨first, rest⟩ := List.pairwise_cons.1 ordered
    unfold place
    split
    · next below =>
      refine List.pairwise_cons.2 ⟨?_, ordered⟩
      intro t member
      rcases List.mem_cons.1 member with rfl | member
      · exact below
      · exact Int.lt_trans below (first t member)
    · next above =>
      refine List.pairwise_cons.2 ⟨?_,
        ih rest fun t member => fresh t (List.mem_cons_of_mem _ member)⟩
      intro t member
      rcases mem_place.1 member with rfl | member
      · have distinct := fresh s List.mem_cons_self
        omega
      · exact first t member

/-- The id that a row without one gets: one above every id there is and every id there ever was, and
at least one. There is none above the greatest revision. -/
def nextId? (log : Log) : Option Int :=
  let reached := max (log.sequence.getD 0) (log.greatest?.getD 0)
  if reached < Revision.greatest then some (reached + 1) else none

/-- The id of a draft: the integer it gives, or the next one. -/
def idOf (log : Log) (d : Draft) : Except Fault Int :=
  match Affinity.integer.apply d.id with
  | .null =>
    match log.nextId? with
    | some id => .ok id
    | none => .error .full
  | .integer id => .ok id
  | _ => .error .mismatch

/-- The columns of the table under which a refusal is told. -/
def qualified (columns : List String) : String :=
  ", ".intercalate (columns.map fun column => logTable ++ "." ++ column)

/-- The refusal of a row whose link is taken, where links are kept unique. -/
def linkClash? (log : Log) (r : Row) : Option Fault :=
  match log.indexing.linkColumns? with
  | none => none
  | some columns => if log.rows.any r.sameLink then some (.takenLink (qualified columns)) else none

/-- Writes a draft and answers its id. Of several broken rules the first is told: an id that is no
integer, a column that needs a value, a taken id, a taken link. -/
def insert (log : Log) (d : Draft) : Except Fault (Int × Log) :=
  match log.idOf d with
  | .error fault => .error fault
  | .ok id =>
    match d.missing? with
    | some column => .error (.missing (qualified [column]))
    | none =>
      let r := d.toRow id
      if fresh : ∀ s ∈ log.rows, s.id ≠ r.id then
        match log.linkClash? r with
        | some fault => .error fault
        | none =>
          .ok
            (id, { log with
              rows := place r log.rows
              ordered := pairwise_place log.ordered fresh
              sequence := some (max (log.sequence.getD 0) id) })
      else .error (.takenId (qualified ["id"]))

/-- Claims an id with a placeholder. -/
def fill (log : Log) (id : Int) : Except Fault Log :=
  (log.insert (.placeholder id)).map (·.2)

/-- The log with the rows that meet a condition. -/
def retain (log : Log) (keep : Row → Bool) : Log :=
  { log with rows := log.rows.filter keep, ordered := log.ordered.filter keep }

@[simp] theorem rows_retain (log : Log) (keep : Row → Bool) :
    (log.retain keep).rows = log.rows.filter keep := rfl

/-! ## Indices -/

/-- Whether two rows have the same link. -/
def hasSharedLink : List Row → Bool
  | [] => false
  | r :: rows => rows.any r.sameLink || hasSharedLink rows

/-- Replaces the indices. The new ones are refused where two rows have the same link. -/
def reindex (log : Log) (indexing : Indexing) : Except Fault Log :=
  match indexing.linkColumns? with
  | none => .ok { log with indexing }
  | some columns =>
    if hasSharedLink log.rows then .error (.takenLink (qualified columns))
        else .ok { log with indexing }

end Log

end RevisionLog
