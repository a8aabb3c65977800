import RevisionLog.Session.Transact

/-!
# Watchers of a session

* `Session.startWatcher` — a watcher of the open store, under a context of its own.
* `Session.source` — how a watcher reaches the log.
* `Session.pollWatcher`, `Session.nextEntry` — the two ways to pull.
* `Session.takeEntries` — a stream of entries.
-/

namespace RevisionLog.Session

/-- A watcher above a revision, under a context derived from another one. -/
def startWatcher (revision : Int) (parent : Context) : Run OpenWatcher := do
  let context ← fresh parent.child
  return { watcher := .since revision, context }

/-- How many rows a watcher reads at once. -/
def batch (settings : WatchSettings) : Nat := max settings.batchSize 1

/-- How a watcher reaches the log. -/
def source (store : OpenStore) (context : Context) : Watcher.Source Run where
  read position :=
    transact store context .read
      (Work.askLog (Store.since · position (batch store.watch)) metaTable)
  claim id := transact store context .write (Work.fill id)

/-- A bound for the rounds of one fetch. -/
def fetchBound (store : OpenStore) : Run Nat := do
  let db ← contentAt store.place
  return ((db.log.map fun log => log.rows.length).getD 0) + 4

/-- All that is there for a watcher. -/
def pollWatcher (store : OpenStore) (w : OpenWatcher) :
    Run (Except Error (List Entry) × OpenWatcher) := do
  let (outcome, watcher) ← w.watcher.poll (source store w.context) (← fetchBound store)
  return (outcome, { w with watcher })

/-- Waits for the next entry for at most a span. A pause counts as at least a millisecond, so the
milliseconds of the span bound the rounds that fit in. -/
def nextEntry (store : OpenStore) (timeout : Nat) (w : OpenWatcher) :
    Run (Watcher.Pull × OpenWatcher) := do
  let patience := (← get).now + timeout
  let pause := rest w.context store.watch.pollInterval (some patience)
  let rounds := timeout / max store.watch.pollInterval 1 + 2
  let (pull, watcher) ← w.watcher.next (source store w.context) pause (fetchBound store) rounds
  if pull = .nothing then advanceTo patience
  return (pull, { w with watcher })

/-- Takes entries until there are enough or one does not come in time. -/
def takeEntries (store : OpenStore) (timeout : Nat) :
    (take : Nat) → OpenWatcher → Run (List (Except Error Entry) × Option StreamStop)
  | 0, _ => return ([], none)
  | take + 1, w => do
    match ← nextEntry store timeout w with
    | (.nothing, _) => return ([], some .timeout)
    | (.ended, _) => return ([], some .ended)
    | (.entry e, w) =>
      let (items, stop) ← takeEntries store timeout take w
      return (.ok e :: items, stop)
    | (.failed e, w) =>
      let (items, stop) ← takeEntries store timeout take w
      return (.error e :: items, stop)

end RevisionLog.Session
