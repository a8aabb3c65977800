/-!
# Statements

The tables of a log and the statements on them, as text in the language of relational databases.
`?1`, `?2`, … stand for the arguments of a statement, in the order of its doc comment.

* `Statements.forTable` — every statement on a log kept in a table of the given name.
* `Layout` — the tables and indices, and how a stored layout is recognised.
-/

namespace RevisionLog

/-- The name of the table of the log. -/
def logTable : String := "kine"

/-- The name of the table of the watermark. -/
def metaTable : String := logTable ++ "_meta"

/-- The name of the table of the older layout. -/
def legacyTable : String := "key_value"

/-- The statements on a log. -/
structure Statements where
  currentRevision : String
  watermark : String
  /-- raises the watermark to a revision -/
  raiseWatermark : String
  /-- the row of a name at a revision -/
  atRevision : String
  /-- the last row of a name -/
  latest : String
  /-- the row of an id, if it is of a name -/
  byId : String
  /-- the live rows of a pattern at a revision; a limit may follow -/
  list : String
  /-- how many live rows of a pattern there are at a revision -/
  count : String
  /-- the rows above a revision, up to a limit -/
  after : String
  insert : String
  insertReturning : String
  /-- claims an id under a name; the row points to itself, so it never stands in the way of
  a chain -/
  fill : String
  /-- removes the history at or below a revision -/
  compact : String
  size : String
  rowCount : String
  legacyRows : String
  deriving DecidableEq, Repr

namespace Statements

/-- The columns of a row in the order in which it is read. -/
def columns : String :=
  "kv.id, kv.name, kv.created, kv.deleted, kv.create_revision, kv.prev_revision, kv.lease, " ++
    "kv.value, kv.old_value"

/-- The condition that a row is no placeholder, for rows named by an alias. -/
def notGap (row : String) : String :=
  "NOT (" ++ row ++ ".created != 0 AND " ++ row ++ ".deleted != 0)"

/-- A selection of whole rows of a table. -/
def rowsOf (table condition : String) : String :=
  "SELECT " ++ columns ++ " FROM " ++ table ++ " AS kv " ++ condition

/-- The id of the last row of every name under a pattern. -/
def lastIds (table : String) : String :=
  "SELECT MAX(mkv.id) AS id FROM " ++ table ++
    " AS mkv WHERE mkv.name LIKE ?1 ESCAPE '\\' AND mkv.id <= ?2 AND " ++
    notGap "mkv" ++ " GROUP BY mkv.name"

/-- A selection of live rows among the last ones. -/
def liveRows (table : String) : String :=
  "JOIN (" ++ lastIds table ++ ") AS maxkv ON maxkv.id = kv.id WHERE kv.deleted = 0"

/-- The columns of a new row, but for its id. -/
def newColumns : String :=
  "name, created, deleted, create_revision, prev_revision, lease, value, old_value"

/-- The first column of the row that tells the current revision. It is also the name of that
column. -/
def greatestKnown (table : String) : String :=
  "MAX( COALESCE((SELECT MAX(rkv.id) FROM " ++ table ++
    " AS rkv), 0), COALESCE((SELECT crkv.value FROM " ++ table ++
    "_meta AS crkv WHERE crkv.name = 'compact_rev'), 0))"

def insertInto (table : String) : String :=
  "INSERT INTO " ++ table ++ "(" ++ newColumns ++ ") VALUES(?1, ?2, ?3, ?4, ?5, ?6, ?7, ?8)"

/-- The rows of the older layout, by name and within a name by id. -/
def legacyRowsText : String :=
  "SELECT id, name, value, del, ttl FROM " ++ legacyTable ++ " ORDER BY name ASC, id ASC"

/-- The statements on a log kept in a table of this name. What the size is asked by hangs on the
engine. -/
def forTable (table : String) : Statements where
  currentRevision := "SELECT " ++ greatestKnown table
  watermark := "SELECT value FROM " ++ table ++ "_meta WHERE name = 'compact_rev'"
  raiseWatermark :=
    "INSERT INTO " ++ table ++ "_meta(name, value) VALUES('compact_rev', ?1) " ++
      "ON CONFLICT(name) DO UPDATE SET value = excluded.value WHERE " ++ table ++
        "_meta.value < excluded.value"
  atRevision :=
    rowsOf table ("WHERE kv.name = ?1 AND kv.id <= ?2 AND " ++ notGap "kv" ++
      " ORDER BY kv.id DESC LIMIT 1")
  latest :=
    rowsOf table ("WHERE kv.name = ?1 AND " ++ notGap "kv" ++ " ORDER BY kv.id DESC LIMIT 1")
  byId := rowsOf table "WHERE kv.id = ?1 AND kv.name = ?2"
  list := rowsOf table (liveRows table ++ " ORDER BY kv.name ASC")
  count := "SELECT COUNT(*) FROM " ++ table ++ " AS kv " ++ liveRows table
  after := rowsOf table "WHERE kv.id > ?1 ORDER BY kv.id ASC LIMIT ?2"
  insert := insertInto table
  insertReturning := insertInto table ++ " RETURNING id"
  fill :=
    "INSERT INTO " ++ table ++ "(id, " ++ newColumns ++
      ") VALUES(?1, ?2, 1, 1, 0, ?1, 0, NULL, NULL)"
  compact :=
    "DELETE FROM " ++ table ++ " WHERE id IN ( SELECT kp.prev_revision FROM " ++ table ++
      " AS kp WHERE kp.prev_revision != 0 AND kp.id <= ?1 UNION SELECT kd.id FROM " ++ table ++
      " AS kd WHERE kd.deleted != 0 AND kd.id <= ?1)"
  size := ""
  rowCount := "SELECT COUNT(*) FROM " ++ table
  legacyRows := legacyRowsText

end Statements

/-! ## Layout -/

namespace Layout

/-- The statements on the log, the one for the size included. -/
def statements : Statements :=
  { Statements.forTable logTable with
    size := "SELECT page_count * page_size FROM pragma_page_count(), pragma_page_size()" }

/-- Creates the tables where they are not yet there. -/
def schema : List String :=
  ["CREATE TABLE IF NOT EXISTS " ++ logTable ++ " (
                    id INTEGER PRIMARY KEY AUTOINCREMENT,
                    name TEXT NOT NULL,
                    created INTEGER,
                    deleted INTEGER,
                    create_revision INTEGER NOT NULL,
                    prev_revision INTEGER,
                    lease INTEGER,
                    value BLOB,
                    old_value BLOB
                )",
    "CREATE TABLE IF NOT EXISTS " ++ metaTable ++ " (
                    name TEXT PRIMARY KEY,
                    value INTEGER NOT NULL
                )"]

/-- The index of rows by name. -/
def nameIndex : String := logTable ++ "_name_index"

/-- The index that lets a row be followed by one row of its name only. -/
def linkIndex : String := logTable ++ "_name_prev_revision_uindex"

def dropIndices : List String :=
  ["DROP INDEX IF EXISTS " ++ nameIndex, "DROP INDEX IF EXISTS " ++ linkIndex]

def createIndices : List String :=
  ["CREATE INDEX IF NOT EXISTS " ++ nameIndex ++ " ON " ++ logTable ++ " (name, id)",
    "CREATE UNIQUE INDEX IF NOT EXISTS " ++ linkIndex ++ " ON " ++ logTable ++
      " (prev_revision, name)"]

/-- Asks for the version of the stored layout. -/
def versionQuery : String := "PRAGMA user_version"

/-- Records that the stored layout is the current one. -/
def recordVersion : String := "PRAGMA user_version = 1"

/-- Counts the tables of the older layout. -/
def legacyQuery : String :=
  "SELECT COUNT(*) FROM sqlite_master WHERE type = 'table' AND name = '" ++ legacyTable ++ "'"

end Layout

end RevisionLog
