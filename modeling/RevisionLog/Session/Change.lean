import RevisionLog.Session.Transact

/-!
# Changes behind the store's back

What another program might do to a file: each act is carried out at once on the main file of the
session, and the first one that is refused ends them.
-/

namespace RevisionLog.Session

/-- The content with its log changed. -/
def changeLog (db : Database) (table : String) (change : Log → Except Fault Log) :
    Except Fault Database :=
  match db.log with
  | none => .error (.noTable table)
  | some log => (change log).map fun log => { db with log := some log }

/-- A version as it is stored: a number of 32 bits, or zero. -/
def storedVersion (n : Int) : Int := if -2147483648 ≤ n ∧ n ≤ 2147483647 then n else 0

/-- Carries out an act, up to the statement that is refused. Answers the content and the refusal. -/
def Act.carryOut (db : Database) : Act → Database × Option Fault
  | .createTables => ({ db with log := some (db.log.getD {}) }, none)
  | .reindex indexing =>
    whole (changeLog db ("main." ++ logTable) fun log =>
      { log with indexing := .unindexed }.reindex indexing)
  | .version n => ({ db with version := storedVersion n }, none)
  | .watermark c =>
    whole (changeLog db metaTable fun log =>
      match Affinity.integer.apply c with
      | .null => .error (.missing (metaTable ++ ".value"))
      | c => .ok { log with watermark := some c })
  | .rows ds => insertAll db ds
  | .deleteIds ids => whole (changeLog db logTable fun log => .ok (log.retain fun r => r.id ∉ ids))
  | .journal => (db, none)
  | .legacy table ds lacking collation =>
    let (older, refusal) := fillLegacy table { lacking, collation } ds
    (if table = legacyTable then { db with legacy := some older } else db, refusal)
where
  /-- One statement. -/
  whole : Except Fault Database → Database × Option Fault
    | .ok db => (db, none)
    | .error fault => (db, some fault)
  /-- A statement for every row. -/
  insertAll (db : Database) : List Draft → Database × Option Fault
    | [] => (db, none)
    | d :: ds =>
      match changeLog db logTable fun log => (·.2) <$> log.insert d with
      | .ok db => insertAll db ds
      | .error fault => (db, some fault)
  /-- A statement for every row of the older layout. -/
  fillLegacy (table : String) (older : Legacy) : List LegacyDraft → Legacy × Option Fault
    | [] => (older, none)
    | d :: ds =>
      match older.insert table d with
      | .ok older => fillLegacy table older ds
      | .error fault => (older, some fault)

/-- Carries out acts, up to the first that is refused. -/
def carryOutAll (db : Database) : List Act → Database × Option Fault
  | [] => (db, none)
  | act :: acts =>
    match act.carryOut db with
    | (db, none) => carryOutAll db acts
    | refused => refused

/-- Carries out acts on the main file. -/
def change (acts : List Act) : Run Reply := do
  let (db, refusal) := carryOutAll (← contentAt mainFile) acts
  keep mainFile db
  return match refusal with
    | none => .done
    | some fault => .fault fault

end RevisionLog.Session
