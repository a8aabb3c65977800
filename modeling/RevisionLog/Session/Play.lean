import RevisionLog.Session.Change
import RevisionLog.Session.Opening
import RevisionLog.Session.Watching

/-!
# Playing a session

* `Session.perform` — one action.
* `Session.obey` — one command.
* `Session.play` — all commands of a session, in order.
-/

namespace RevisionLog.Session

/-! ## Answers -/

/-- An answer that may be an error. -/
def answer {α : Type} (reply : α → Reply) : Except Error α → Reply
  | .ok a => reply a
  | .error e => .failed e

/-- An action on the open store. -/
def withStore (action : OpenStore → Run Reply) : Run Reply := do
  match (← get).store with
  | none => return .refused .noStore
  | some store => action store

/-- A transaction of the open store, under the context of a name. -/
def storeAction {α : Type} (name : Option String) (mode : Transaction.Mode) (work : Work α)
    (reply : α → Reply) : Run Reply :=
  withStore fun store => do
    let context ← contextOf name
    return answer reply (← transact store context mode work)

/-- An action on a watcher. Its answer carries the state of the watcher after it. -/
def withWatcher (name : String) (action : OpenStore → OpenWatcher → Run (Reply × OpenWatcher)) :
    Run Reply := do
  let s ← get
  match s.watchers.lookup name, s.store with
  | some w, some store =>
    let (reply, w) ← action store w
    modify fun s => { s with watchers := put name w s.watchers }
    return .watched reply w.watcher.cursor w.watcher.done
  | _, _ => return .refused .noWatcher

/-- An action on a context. -/
def withContext (name : String) (action : Context → Run Reply) : Run Reply := do
  match ← named? name with
  | none => return .refused .noContext
  | some context => action context

/-- An answer with the time that it took. A wait that was given up takes no more than it
was given. -/
def timed (action : Run Reply) : Run Reply := do
  let start := (← get).now
  match ← action with
  | .timeout => return .timeout
  | reply => return .took reply ((← get).now - start)

/-! ## Compaction -/

/-- How a run of compaction on demand reaches the log. -/
def demandTarget (store : OpenStore) (context : Context) : Compaction.Target Run where
  currentRevision := transact store context .read (Work.askLog Store.currentRevision)
  watermark := transact store context .read (Work.askLog Store.compactedTo metaTable)
  compact revision := transact store context .write (Work.onLog (Store.compact · revision))

/-- What a run of compaction is answered by. -/
def compacted : Compaction.Outcome → Reply
  | .removed rows => .number rows
  | .failed e => .failed e
  | .overflow => .refused .brokeDown

/-! ## Transactions -/

/-- Carries out the statements of a transaction on a content, up to the first that fails. Answers
what became of each, the error, and the content. -/
def carryOutSteps (db : Database) : List Step → List StepReply × Option Error × Database
  | [] => ([], none, db)
  | step :: steps =>
    let go (outcome : Except Error StepReply × Database) (code : List StepReply) :
        List StepReply × Option Error × Database :=
      match outcome with
      | (.ok reply, db) =>
        let (replies, e, db) := carryOutSteps db steps
        (reply :: replies, e, db)
      | (.error e, db) => (code ++ [.failed e], some e, db)
    match step with
    | .insert d => go ((StepReply.id <$> Work.insert d).carryOut db) []
    | .fill id => go (((fun _ => StepReply.done) <$> Work.fill id).carryOut db) []
    | .row d =>
      match writeRow db d with
      | .ok (id, db) => go (.ok (.id id), db) []
      | .error fault => go (.error (.ofFault fault), db) [.code fault.code]
where
  /-- A row of any cells. -/
  writeRow (db : Database) (d : Draft) : Except Fault (Int × Database) :=
    match db.log with
    | none => .error (.noTable logTable)
    | some log => (log.insert d).map fun (id, log) => (id, { db with log := some log })

/-- The end of a transaction whose statements came to `e`. -/
def conclude (context : Context) (e : Option Error) (ending : Ending) :
    Run (Except Error Unit) := do
  match e, ending with
  | some e, _ => return .error e
  | none, .commit => return .ok ()
  | none, .fail e => return .error e
  | none, .cancel =>
    cancel context
    return .ok ()
  | none, .cancelAndFail e =>
    cancel context
    return .error e

/-- A transaction of several statements. -/
def transactSteps (store : OpenStore) (mode : Transaction.Mode) (steps : List Step)
    (ending : Ending) (context : Context) : Run Reply := do
  let (outcome, replies) ← transactWith store context mode fun db => do
    let (replies, e, changed) := carryOutSteps db steps
    let concluded ← conclude context e ending
    let work : Work Unit := do
      set changed
      liftExcept concluded
    return (replies, work)
  return .transacted (answer (fun _ => .done) outcome) (replies.getD [])
where
  /-- An end as work that changes nothing. -/
  liftExcept : Except Error Unit → Work Unit
    | .ok _ => pure ()
    | .error e => throw e

/-- A read that takes long: its context is cancelled, or time passes, while it runs. -/
def longRead (store : OpenStore) (advance : Option Nat) (translated : Bool) (context : Context) :
    Run Reply := do
  let (outcome, _) ← transactWith store context .read fun _ => do
    match advance with
    | some span => advanceTo ((← get).now + span)
    | none => cancel context
    let stopped : Error := if translated then .ofFault .interrupted else .query .interrupted
    let work : Work Unit := if (← causeOf context).isSome then throw stopped else pure ()
    return ((), work)
  return answer (fun _ => .done) outcome

/-! ## Attempts -/

/-- The next of the attempts, of which the last one is made again and again. Answers how many were
made as well. -/
def nextAttempt (context : Context) (attempts : List Attempt) :
    StateT Nat Run (Except Error Unit) := do
  let made ← getModify (· + 1)
  match (attempts[made]?).orElse fun _ => attempts.getLast? with
  | none => return .ok ()
  | some .succeed => return .ok ()
  | some (.fail e) => return .error e
  | some (.cancelAndFail e) =>
    cancel context
    return .error e

/-- Repeats attempts under a policy. -/
def repeatAttempts (policy : RetrySettings) (attempts : List Attempt) (context : Context) :
    Run Reply := do
  let start := (← get).now
  let (outcome, calls) ←
    (Retry.run policy (nextAttempt context attempts)
      (monadLift (pauseUnder context policy.interval))).run 0
  return .attempted (answer (fun _ => .done) outcome) calls ((← get).now - start)

/-! ## Contexts -/

/-- Makes a context of a name. -/
def newContext (name : String) (origin : Origin) (parent : Option String) : Run Unit := do
  let now := (← get).now
  let context ←
    match origin with
    | .background => fresh Context.background
    | .token => fresh Context.background
    | .clone => contextOf parent
    | .child => fresh (← contextOf parent).child
    | .timeout span => fresh ((← contextOf parent).withTimeout now span)
    | .deadline time => fresh ((← contextOf parent).withDeadline time)
  modify fun s => { s with contexts := put name context s.contexts }

/-- Waits until a context is finished, for at most a span. -/
def awaitContext (context : Context) (timeout : Nat) : Run Reply := do
  let patience := (← get).now + timeout
  match ← causeOf context with
  | some cause => return .cause (some cause) none
  | none =>
    match context.deadline.filter (· ≤ patience) with
    | some deadline =>
      advanceTo deadline
      return .cause (some .deadlineExceeded) none
    | none =>
      advanceTo patience
      return .timeout

/-! ## Actions -/

/-- One action. -/
def perform : Action → Run Reply
  | .open none _ _ => return .refused .unreadable
  | .open (some settings) compacting name => do
    close
    let context ← contextOf name
    match ← openStore settings {} context with
    | .error e => return .failed e
    | .ok (store, _) =>
      modify fun s => { s with store := some store }
      if compacting then startCompactor settings.compaction context
      return .done
  | .prepare none _ _ _ => return .refused .unreadable
  | .prepare (some settings) watch preparation name => do
    close
    match ← openStore settings preparation (← contextOf name) with
    | .error e => return .failed e
    | .ok (store, status) =>
      let store := if watch then store else { store with watch := {} }
      modify fun s => { s with store := some store }
      return .prepared store.locks status
  | .close => do
    close
    return .done
  | .create key value lease name =>
    storeAction name .write (Work.onLog (Store.create · key value lease)) .number
  | .update key value revision lease name =>
    storeAction name .write (Work.onLog (Store.update · key value revision lease)) .number
  | .delete key revision name =>
    storeAction name .write (Work.onLog (Store.delete · key revision)) .number
  | .get key revision name => storeAction name .read (Work.askLog (Store.get · key revision)) .entry
  | .list start limit revision name =>
    storeAction name .read (Work.askLog (Store.list · start limit revision)) .entries
  | .count start revision name =>
    storeAction name .read (Work.askLog (Store.count · start revision)) fun (current, keys) =>
      .counted current keys
  | .currentRevision name => storeAction name .read (Work.askLog Store.currentRevision) .number
  | .compact revision name =>
    storeAction name .write (Work.onLog (Store.compact · revision)) fun n => .number n
  | .watermark name => storeAction name .read (Work.askLog Store.compactedTo metaTable) .number
  | .size name =>
    withStore fun store => do
      let blank : Work Bool := return (← get) = {}
      return answer (fun blank => .truth (store.stamped || !blank))
        (← transact store (← contextOf name) .read blank)
  | .watch name revision context =>
    withStore fun _ => do
      let w ← startWatcher revision (← contextOf context)
      modify fun s => { s with watchers := put name w s.watchers }
      return .watched .done w.watcher.cursor w.watcher.done
  | .poll name =>
    withWatcher name fun store w => do
      let (outcome, w) ← pollWatcher store w
      return (answer .entries outcome, w)
  | .next name timeout =>
    withWatcher name fun store w => do
      let (pulled, w) ← nextEntry store timeout w
      return (match pulled with
        | .entry e => .entry (some e)
        | .ended => .ended
        | .nothing => .timeout
        | .failed e => .failed e, w)
  | .cancelWatch name =>
    withWatcher name fun _ w => do
      cancel w.context
      return (.done, w)
  | .watchState name => withWatcher name fun _ w => return (.done, w)
  | .stream revision take timeout name =>
    withStore fun store => do
      let w ← startWatcher revision (← contextOf name)
      let (items, stop) ← takeEntries store timeout take w
      return .streamed items stop
  | .runCompactor settings name =>
    withStore fun store => do
      match settings with
      | none => return .refused .unreadable
      | some settings =>
        return compacted (← Compaction.run (demandTarget store (← contextOf name)) settings)
  | .compactTo revision settings name =>
    withStore fun store => do
      match settings with
      | none => return .refused .unreadable
      | some settings =>
        return compacted
          (← Compaction.compactTo (demandTarget store (← contextOf name)) settings revision)
  | .startCompactor settings name =>
    withStore fun _ => do
      match settings with
      | none => return .refused .unreadable
      | some settings =>
        startCompactor settings (← contextOf name)
        return .done
  | .stopCompactor => do
    match (← get).compactor with
    | none => return .done
    | some compactor =>
      let wasCancelled := compactor.context.isCancelled (← get).tokens
      cancel compactor.context
      modify fun s => { s with compactor := none }
      return .stopped wasCancelled
  | .sleep span => do
    advanceTo ((← get).now + span)
    return .done
  | .newContext name origin parent => do
    newContext name origin parent
    return .done
  | .cancelContext name =>
    withContext name fun context => do
      cancel context
      return .done
  | .contextCause name =>
    withContext name fun context => do
      return .cause (← causeOf context) (some (context.isCancelled (← get).tokens))
  | .checkContext name =>
    withContext name fun context => do
      return match ← causeOf context with
        | none => .done
        | some cause => .failed cause.toError
  | .contextDeadline name => withContext name fun context => return .deadline context.deadline
  | .awaitContext name timeout => withContext name fun context =>
    timed (awaitContext context timeout)
  | .sleepUnder name span =>
    withContext name fun context =>
      timed do return answer (fun _ => .done) (← pauseUnder context span)
  | .retry none _ _ => return .refused .unreadable
  | .retry (some policy) attempts name => do repeatAttempts policy attempts (← contextOf name)
  | .transact mode steps ending name =>
    withStore fun store => do transactSteps store mode steps ending (← contextOf name)
  | .longRead advance translated name =>
    withStore fun store => do longRead store advance translated (← contextOf name)
  | .change acts => change acts
  | .dump => return .content (← contentAt mainFile)
  | .unknown => withStore fun _ => return .refused .badInput

/-- One command. Actions at once take their turns in order. -/
def obey : Command → Run Reply
  | .act action => perform action
  | .race actions => withStore fun _ => return .raced (← actions.mapM perform)
  | .contend hold turn action => do
    match hold, (← get).store with
    | .lock, none => return .refused .noStore
    | .pool, none => return .refused .noStore
    | hold, _ =>
      modify fun s => { s with obstacle := some { hold, turn } }
      let reply ← perform action
      letGo
      return reply

/-- All commands of a session, in order. -/
def play (commands : List Command) : List Reply := ((commands.mapM obey).run {}).1

end RevisionLog.Session
