import RevisionLog.Json.Reader
import RevisionLog.Revision
import RevisionLog.Settings

/-!
# Reading settings

Settings are a record of named fields, or the list of its values in the order of the fields. A field
that is left out keeps its default, one that is given twice or is of another type refuses the whole,
and fields that do not exist are skipped.

* `Field` — one field of a record: its name, and what a value does to the record.
* `Field.readRecord` — a record by its fields.
* `Settings.read?` and its parts.
-/

namespace RevisionLog

/-- A field of a record that is read. -/
structure Field (α : Type) where
  name : String
  /-- the record with the field set, if the value is one for it -/
  set : Json → α → Option α

namespace Field

variable {α : Type}

/-- A field that holds a whole number of a range. -/
def int (name : String) (least greatest : Int) (put : Int → α → α) : Field α where
  name := name
  set j a := j.toInt?.bind fun n => if least ≤ n ∧ n ≤ greatest then some (put n a) else none

/-- A field that holds a number of at most so many bits without sign. -/
def nat (name : String) (bits : Nat) (put : Nat → α → α) : Field α :=
  int name 0 ((Nat.pow 2 bits : Nat) - 1) fun n => put n.toNat

/-- A field that holds a record of its own. -/
def nested {β : Type} (name : String) (read : Json → Option β) (put : β → α → α) : Field α where
  name := name
  set j a := (read j).map (put · a)

/-- Sets the fields named by the members. `seen` are the names met so far. -/
def setMembers (fields : List (Field α)) : (seen : List String) → List (Option String × Json) → α →
    Option α
  | _, [], a => some a
  | _, (none, _) :: _, _ => none
  | seen, (some name, j) :: rest, a =>
    match fields.find? fun field => field.name = name with
    | none => setMembers fields seen rest a
    | some field =>
      if name ∈ seen then none
      else (field.set j a).bind (setMembers fields (name :: seen) rest)

/-- Sets the first fields to the values, of which there are no more than fields. -/
def setItems : List (Field α) → List Json → α → Option α
  | _, [], a => some a
  | [], _ :: _, _ => none
  | field :: fields, j :: rest, a => (field.set j a).bind (setItems fields rest)

/-- Reads a record over its defaults. -/
def readRecord (fields : List (Field α)) (default : α) : Json → Option α
  | .object members => setMembers fields [] members default
  | .array items => setItems fields items default
  | _ => none

end Field

namespace WatchSettings

def fields : List (Field WatchSettings) :=
  [.nat "poll_interval_ms" 64 fun n s => { s with pollInterval := n },
    .nat "batch_size" 64 fun n s => { s with batchSize := n }]

def read? : Json → Option WatchSettings := Field.readRecord fields {}

end WatchSettings

namespace RetrySettings

def fields : List (Field RetrySettings) :=
  [.nat "interval_ms" 64 fun n s => { s with interval := n },
    .nat "max_attempts" 32 fun n s => { s with attempts := n }]

def read? : Json → Option RetrySettings := Field.readRecord fields {}

end RetrySettings

namespace CompactionSettings

def fields : List (Field CompactionSettings) :=
  [.nat "interval_ms" 64 fun n s => { s with interval := n },
    .int "min_retain" Revision.least Revision.greatest fun n s => { s with retained := n },
    .int "batch_size" Revision.least Revision.greatest fun n s => { s with batchSize := n }]

def read? : Json → Option CompactionSettings := Field.readRecord fields {}

end CompactionSettings

namespace Settings

def fields : List (Field Settings) :=
  [{ name := "endpoint", set := fun j s => j.toString?.map fun t => { s with endpoint := t } },
    .nat "max_connections" 32 fun n s => { s with connections := n },
    .nat "connection_timeout_ms" 64 fun n s => { s with connectionTimeout := n },
    { name := "serialize_writes",
      set := fun j s => j.toBool?.map fun b => { s with serializeWrites := b } },
    .nested "watch" WatchSettings.read? fun w s => { s with watch := w },
    .nested "setup" RetrySettings.read? fun r s => { s with setup := r },
    .nested "compaction" CompactionSettings.read? fun c s => { s with compaction := c }]

def ofJson? : Json → Option Settings := Field.readRecord fields {}

/-- Reads settings from text. -/
def read? (text : String) : Option Settings := (Json.read? text).bind ofJson?

end Settings

end RevisionLog
