import RevisionLog.Database
import RevisionLog.Migration
import RevisionLog.Settings
import RevisionLog.Transaction

/-!
# Commands and replies

What a session is told to do, and what it answers.

* `Session.Action` — one thing to do.
* `Session.Command` — an action alone, several at once, or one while something is held.
* `Session.Reply` — the answer.

A context is named where an action runs under one; without a name, or under a name that is not
known, a fresh background context is used.
-/

namespace RevisionLog.Session

/-- How an opening differs from the usual one. -/
structure Preparation where
  lastInsertId : Bool := true
  lockWrites : Bool := true
  createTables : Bool := true
  migrate : Bool := true
  /-- the question for an older table has an answer -/
  countable : Bool := true
  /-- the statement that creates the tables is complete -/
  complete : Bool := true
  deriving DecidableEq, Repr, Inhabited

/-- A statement of a transaction. -/
inductive Step
  /-- a row as the store writes it -/
  | insert (d : Draft)
  | fill (id : Int)
  /-- a row of any cells -/
  | row (d : Draft)
  deriving DecidableEq, Repr

/-- How a transaction ends whose statements all went well. -/
inductive Ending
  | commit
  | fail (e : Error)
  /-- its context is cancelled before it commits -/
  | cancel
  /-- its context is cancelled, and it fails with an error of its own -/
  | cancelAndFail (e : Error)
  deriving DecidableEq, Repr

/-- What comes of an attempt to create tables. -/
inductive Attempt
  | succeed
  | fail (e : Error)
  /-- the context is cancelled, and the attempt fails with this error -/
  | cancelAndFail (e : Error)
  deriving DecidableEq, Repr

/-- Where a new context comes from. -/
inductive Origin
  | background
  | token
  | child
  | clone
  | timeout (span : Nat)
  | deadline (time : Nat)
  deriving DecidableEq, Repr

/-- A change of the file behind the store's back. -/
inductive Act
  | createTables
  /-- the indices are dropped, and these made -/
  | reindex (indexing : Indexing)
  | version (n : Int)
  | watermark (c : Cell)
  | rows (ds : List Draft)
  | deleteIds (ids : List Int)
  | journal
  /-- a table of the older layout; under another name it is of no effect -/
  | legacy (table : String) (rows : List LegacyDraft) (lacking : List LegacyColumn)
      (collation : Collation)

/-- One thing to do. -/
inductive Action
  | open (settings : Option Settings) (compacting : Bool) (context : Option String)
  | prepare (settings : Option Settings) (watch : Bool) (preparation : Preparation)
      (context : Option String)
  | close
  | create (key : String) (value : Octets) (lease : Int) (context : Option String)
  | update (key : String) (value : Octets) (revision lease : Int) (context : Option String)
  | delete (key : String) (revision : Int) (context : Option String)
  | get (key : String) (revision : Int) (context : Option String)
  | list (start : String) (limit : Nat) (revision : Int) (context : Option String)
  | count (start : String) (revision : Int) (context : Option String)
  | currentRevision (context : Option String)
  | compact (revision : Int) (context : Option String)
  | watermark (context : Option String)
  | size (context : Option String)
  | watch (name : String) (revision : Int) (context : Option String)
  | poll (name : String)
  | next (name : String) (timeout : Nat)
  | cancelWatch (name : String)
  | watchState (name : String)
  /-- takes entries as long as each comes in time -/
  | stream (revision : Int) (take timeout : Nat) (context : Option String)
  | runCompactor (settings : Option CompactionSettings) (context : Option String)
  | compactTo (revision : Int) (settings : Option CompactionSettings) (context : Option String)
  | startCompactor (settings : Option CompactionSettings) (context : Option String)
  | stopCompactor
  | sleep (span : Nat)
  | newContext (name : String) (origin : Origin) (parent : Option String)
  | cancelContext (name : String)
  | contextCause (name : String)
  | checkContext (name : String)
  | contextDeadline (name : String)
  | awaitContext (name : String) (timeout : Nat)
  | sleepUnder (name : String) (span : Nat)
  | retry (policy : Option RetrySettings) (attempts : List Attempt) (context : Option String)
  | transact (mode : Transaction.Mode) (steps : List Step) (ending : Ending)
      (context : Option String)
  /-- a read that is interrupted after its context was cancelled, or after time has passed -/
  | longRead (advance : Option Nat) (translated : Bool) (context : Option String)
  | change (acts : List Act)
  | dump
  | unknown

/-- What is held while an action waits. -/
inductive Hold
  | lock
  | pool
  /-- the file, by a connection that is about to write these rows -/
  | file (rows : List Draft)

/-- What happens once the action waits. -/
inductive Turn
  /-- nothing, until the action has answered -/
  | wait
  | release
  | releaseAfter (span : Nat)
  | cancel (context : String)
  | advance (span : Nat)

/-- What a session is told to do. -/
inductive Command
  | act (action : Action)
  | race (actions : List Action)
  | contend (hold : Hold) (turn : Turn) (action : Action)

/-- Why an action is not even tried. -/
inductive Refusal
  | noStore
  | noWatcher
  | noContext
  | badInput
  /-- the settings could not be read -/
  | unreadable
  /-- the arithmetic of the action broke down -/
  | brokeDown
  deriving DecidableEq, Repr

/-- What became of one statement of a transaction. -/
inductive StepReply
  | id (n : Int)
  | done
  /-- the code under which a failure is recorded -/
  | code (text : String)
  | failed (e : Error)
  deriving DecidableEq, Repr

/-- How a stream stopped before it was full. -/
inductive StreamStop
  | timeout
  | ended
  deriving DecidableEq, Repr

/-- An answer. -/
inductive Reply
  | done
  | number (n : Int)
  | truth (b : Bool)
  | entry (e : Option Entry)
  | entries (es : List Entry)
  | counted (current : Int) (keys : Nat)
  | timeout
  | ended
  | failed (e : Error)
  | refused (r : Refusal)
  /-- a refusal by the tables of a change behind the store's back -/
  | fault (f : Fault)
  | prepared (locks : Bool) (status : Option MigrationStatus)
  | watched (reply : Reply) (cursor : Int) (done : Bool)
  | streamed (items : List (Except Error Entry)) (stop : Option StreamStop)
  | cause (c : Option Cause) (cancelled : Option Bool)
  | deadline (time : Option Nat)
  | took (reply : Reply) (span : Nat)
  | attempted (reply : Reply) (calls span : Nat)
  | transacted (reply : Reply) (steps : List StepReply)
  | stopped (wasCancelled : Bool)
  | raced (replies : List Reply)
  | content (db : Database)

end RevisionLog.Session
