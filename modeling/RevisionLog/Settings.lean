/-!
# Settings

What a store is opened with. Times are milliseconds.
-/

namespace RevisionLog

/-- How a watcher reads the log. -/
structure WatchSettings where
  /-- pause after a read that found nothing new -/
  pollInterval : Nat := 1000
  /-- how many rows are read at once; zero counts as one -/
  batchSize : Nat := 500
  deriving DecidableEq, Repr, Inhabited

/-- How often the creation of the tables is attempted. -/
structure RetrySettings where
  /-- pause between attempts -/
  interval : Nat := 1000
  /-- attempts in all; zero counts as one -/
  attempts : Nat := 300
  deriving DecidableEq, Repr, Inhabited

/-- How the log is compacted. -/
structure CompactionSettings where
  /-- pause between runs -/
  interval : Nat := 300000
  /-- revisions below the current one that are kept -/
  retained : Int := 1000
  /-- how far the watermark rises at once; anything below one counts as one -/
  batchSize : Int := 1000
  deriving DecidableEq, Repr, Inhabited

/-- Everything that a store is opened with. -/
structure Settings where
  endpoint : String := ""
  connections : Nat := 10
  /-- how long an operation waits for a free connection -/
  connectionTimeout : Nat := 30000
  /-- writes to the log take turns, where the engine needs it -/
  serializeWrites : Bool := true
  watch : WatchSettings := {}
  setup : RetrySettings := {}
  compaction : CompactionSettings := {}
  deriving DecidableEq, Repr, Inhabited

end RevisionLog
