import RevisionLog.Error
import RevisionLog.Text.Blank
import RevisionLog.Text.Segment

/-!
# Endpoints

Where a store is kept. An endpoint is `scheme://connection` or a bare connection string; a
connection string is a path with options behind a question mark, `path?key=value&key=value`.

* `Endpoint.Options` — the parsed form of a connection string.
* `Endpoint.Setting` — one option, as a change of the options.
* `Endpoint.Options.parse`, `Endpoint.parse` — reading. Options are settled in order, so the last
  one of a kind wins.
-/

namespace RevisionLog.Endpoint

/-- How the engine keeps its journal. -/
inductive JournalMode
  | delete
  | truncate
  | persist
  | memory
  | wal
  | off
  deriving DecidableEq, Repr

namespace JournalMode

def all : List JournalMode := [delete, truncate, persist, memory, wal, off]

def name : JournalMode → String
  | delete => "DELETE"
  | truncate => "TRUNCATE"
  | persist => "PERSIST"
  | memory => "MEMORY"
  | wal => "WAL"
  | off => "OFF"

end JournalMode

/-- How eagerly the engine writes to the disk. -/
inductive SyncMode
  | off
  | normal
  | full
  | extra
  deriving DecidableEq, Repr

namespace SyncMode

def all : List SyncMode := [off, normal, full, extra]

def name : SyncMode → String
  | off => "OFF"
  | normal => "NORMAL"
  | full => "FULL"
  | extra => "EXTRA"

end SyncMode

/-- How the database of a store is opened. -/
structure Options where
  path : String := "./db/state.db"
  journal : JournalMode := .wal
  /-- milliseconds that a statement waits for another connection -/
  busyTimeout : Nat := 5000
  sync : SyncMode := .normal
  sharedCache : Bool := false
  /-- the id of a new row is asked of the connection and not of the statement -/
  lastInsertId : Bool := true
  /-- writes of one process take turns -/
  lockWrites : Bool := true
  deriving DecidableEq, Repr, Inhabited

/-- One option of a connection string. -/
inductive Setting
  | journal (mode : JournalMode)
  | busyTimeout (millis : Nat)
  | sync (mode : SyncMode)
  /-- writes lock from their beginning, as they always do -/
  | lockAtOnce
  | sharedCache (shared : Bool)
  deriving DecidableEq, Repr

/-- The options with one of them set. -/
def Options.set (o : Options) : Setting → Options
  | .journal mode => { o with journal := mode }
  | .busyTimeout millis => { o with busyTimeout := millis }
  | .sync mode => { o with sync := mode }
  | .lockAtOnce => o
  | .sharedCache shared => { o with sharedCache := shared }

/-- The greatest number of milliseconds a timeout can be. -/
def greatestTimeout : Nat := Nat.pow 2 64 - 1

/-- A text with its ASCII letters in upper case. -/
def upper (cs : List Char) : List Char := cs.map Char.toUpper

/-- The mode of a name, in any case of ASCII letters. -/
def pick? {α : Type} (all : List α) (name : α → String) (value : List Char) : Option α :=
  all.find? fun mode => (name mode).toList = upper value

open Misconfiguration in
/-- The option that a key and its value stand for. -/
def Setting.ofPair (key value : List Char) : Except Misconfiguration Setting :=
  let word := String.ofList value
  let mode {α : Type} (all : List α) (name : α → String) : Except Misconfiguration α :=
    match pick? all name value with
    | some mode => .ok mode
    | none => .error (invalidMode (String.ofList key) word (all.map name))
  match String.ofList key with
  | "_journal" | "_journal_mode" => Setting.journal <$> mode JournalMode.all JournalMode.name
  | "_busy_timeout" | "_timeout" =>
    match Text.decimal? greatestTimeout value with
    | some millis => .ok (.busyTimeout millis)
    | none => .error (invalidTimeout (String.ofList key) word)
  | "_synchronous" | "_sync" => Setting.sync <$> mode SyncMode.all SyncMode.name
  | "_txlock" => if upper value = "IMMEDIATE".toList then .ok .lockAtOnce
      else .error (unsupportedLock word)
  | "cache" =>
    match word with
    | "shared" => .ok (.sharedCache true)
    | "private" => .ok (.sharedCache false)
    | _ => .error (invalidCache word)
  | key => .error (unknownOption key)

/-- The option a part of the query stands for. -/
def Setting.read (part : List Char) : Except Misconfiguration Setting :=
  match Text.cutAt? ['='] part with
  | some (key, value) => Setting.ofPair key value
  | none => .error (.malformedOption (String.ofList part))

/-- The connection string that a blank one stands for. -/
def defaultConnection : List Char := "./db/state.db?_journal=WAL".toList

/-- Reads a connection string. -/
def Options.parse (connection : List Char) : Except Misconfiguration Options :=
  let trimmed := Text.trim connection
  let source :=
    Text.dropStart "file:".toList (if trimmed.isEmpty then defaultConnection else trimmed)
  let (path, query) := (Text.cutAt? ['?'] source).getD (source, [])
  if path.isEmpty then .error (.noPath (String.ofList source))
  else do
    let settings ← ((Text.segments '&' query).filter (!·.isEmpty)).mapM Setting.read
    return settings.foldl Options.set { path := String.ofList path }

/-- The schemes of the one engine there is. -/
def schemes : List String := ["sqlite", "sqlite3"]

/-- Reads an endpoint. One without a scheme is a connection string. -/
def parse (endpoint : List Char) : Except Misconfiguration Options :=
  let trimmed := Text.trim endpoint
  match Text.cutAt? "://".toList trimmed with
  | none => Options.parse trimmed
  | some (scheme, connection) =>
    if String.ofList scheme ∈ schemes then Options.parse connection
    else .error (.unsupportedDriver (String.ofList scheme) (String.ofList trimmed))

end RevisionLog.Endpoint
