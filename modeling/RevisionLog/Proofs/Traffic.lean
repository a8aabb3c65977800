import Mathlib.Data.Finset.Card
import Mathlib.Logic.Relation
import RevisionLog.Proofs.Atomicity

/-!
# The traffic of transactions

Many calls come to one database, each for a transaction under a context of its own. A call takes a
connection, then the lock if it needs it, and then publishes by which connection it can be
interrupted; on its way out it takes the handle back before the lock, and the lock before the
connection. In between the others go on, and contexts are finished at any time. However the steps of
the calls follow each other, no connection is ever with two calls, nobody waits in vain, and no
interruption strikes anybody else.

* `Traffic.Place` — where a call is, and what it has there.
* `Traffic.Move`, `Traffic.Event` — a step that a call takes by itself, and what happens to it
  besides.
* `Traffic.Effect` — all that a step can do to what is shared.
* `Traffic.Pooled`, `Guarded`, `Gated`, `Armed` — what is always true of connections, the lock and
  the handles.
* `Traffic.Reachable.orderly` — it is, however the steps follow each other.
-/

namespace RevisionLog

open Transaction

/-- The calls of a database, and how it was opened. -/
structure Traffic (ι : Type) where
  connections : Nat
  /-- the engine admits one writer at a time -/
  locks : Bool
  serializeWrites : Bool
  mode : ι → Mode
  context : ι → Context

namespace Traffic

/-! ## Places -/

/-- How a call ends. -/
inductive Ending
  | committed
  | failed (e : Error)
  | panicked
  /-- its context was finished when it was asked -/
  | refused (cause : Cause)
  /-- no connection became free in time -/
  | exhausted
  deriving DecidableEq

/-- Where a call is, with the connection that it has, and whether it has the lock. Where it waits it
asks its context first and then tries to get on, again and again. -/
inductive Place
  | starting
  | connecting (asked : Bool)
  | locking (c : Nat) (asked : Bool)
  /-- it is about to publish its handle -/
  | arming (c : Nat) (locked : Bool)
  | opening (c : Nat) (locked : Bool)
  | working (c : Nat) (locked : Bool)
  /-- its work came through -/
  | finishing (c : Nat) (locked : Bool)
  | committing (c : Nat) (locked : Bool)
  /-- it is on its way out, and takes its handle back -/
  | disarming (c : Nat) (locked : Bool) (ending : Ending)
  | unlocking (c : Nat) (locked : Bool) (ending : Ending)
  | returning (c : Nat) (ending : Ending)
  | ended (ending : Ending)
  deriving DecidableEq

namespace Place

/-- The connection that a call has. -/
def connection? : Place → Option Nat
  | starting => none
  | connecting _ => none
  | locking c _ => some c
  | arming c _ => some c
  | opening c _ => some c
  | working c _ => some c
  | finishing c _ => some c
  | committing c _ => some c
  | disarming c _ _ => some c
  | unlocking c _ _ => some c
  | returning c _ => some c
  | ended _ => none

/-- Whether a place is beyond the lock, and if so whether the call has it. -/
def beyond? : Place → Option Bool
  | arming _ locked => some locked
  | opening _ locked => some locked
  | working _ locked => some locked
  | finishing _ locked => some locked
  | committing _ locked => some locked
  | disarming _ locked _ => some locked
  | unlocking _ locked _ => some locked
  | _ => none

/-- Whether a call has the lock. -/
def isLocked (p : Place) : Bool := p.beyond?.getD false

/-- Whether a call takes turns, as far as its place tells. -/
def gate? : Place → Option Bool
  | locking _ true => some true
  | p => p.beyond?

/-- The connection that the handle of a call reaches. -/
def handle? : Place → Option Nat
  | opening c _ => some c
  | working c _ => some c
  | finishing c _ => some c
  | committing c _ => some c
  | disarming c _ _ => some c
  | _ => none

def isEnded : Place → Bool
  | ended _ => true
  | _ => false

/-- Where a call is after it has tried in vain for a while. -/
def again? : Place → Option Place
  | connecting true => some (connecting false)
  | locking c true => some (locking c false)
  | _ => none

/-- How many steps a call has still to take, at most, if all it tries goes well. -/
def left : Place → Nat
  | starting => 13
  | connecting false => 12
  | connecting true => 11
  | locking _ false => 10
  | locking _ true => 9
  | arming _ _ => 8
  | opening _ _ => 7
  | working _ _ => 6
  | finishing _ _ => 5
  | committing _ _ => 4
  | disarming _ _ _ => 3
  | unlocking _ _ _ => 2
  | returning _ _ => 1
  | ended _ => 0

variable {p p' : Place} {c : Nat}

/-- The lock is only with calls that have a connection. -/
theorem exists_connection (h : p.isLocked = true) : ∃ c, p.connection? = some c := by
  cases p <;> first | exact ⟨_, rfl⟩ | cases h

theorem connection_of_handle (h : p.handle? = some c) : p.connection? = some c := by
  cases p <;> first | exact h | cases h

theorem connection_of_isEnded (h : p.isEnded = true) : p.connection? = none := by
  cases p <;> first | rfl | cases h

theorem handle_of_isEnded (h : p.isEnded = true) : p.handle? = none := by
  cases p <;> first | rfl | cases h

theorem isLocked_of_isEnded (h : p.isEnded = true) : p.isLocked = false := by
  cases p <;> first | rfl | cases h

theorem isEnded_of_connection (h : p.connection? = some c) : p.isEnded = false := by
  cases p <;> first | rfl | cases h

theorem gate_of_beyond {b : Bool} (h : p.beyond? = some b) : p.gate? = some b := by
  cases p <;> first | exact h | cases h

theorem beyond_of_isLocked (h : p.isLocked = true) : p.beyond? = some true := by
  cases p <;> first | exact congrArg some h | cases h

/-- Calls wait for a connection or for the lock. -/
theorem of_again? (h : p.again? = some p') : p = connecting true ∨ ∃ c, p = locking c true := by
  cases p with
  | connecting asked =>
    cases asked <;> cases h
    exact Or.inl rfl
  | locking c asked =>
    cases asked <;> cases h
    exact Or.inr ⟨c, rfl⟩
  | _ => cases h

/-- Whoever has the lock waits for nobody. -/
theorem again?_of_isLocked (h : p.isLocked = true) : p.again? = none := by
  cases p <;> first | rfl | cases h

end Place

/-! ## Steps -/

variable {ι : Type}

/-- What the calls share, where each of them is, and what handles are published. -/
structure State (ι : Type) where
  moment : Moment := {}
  /-- the connections that no call has -/
  idle : Finset Nat
  lock : WriteLock
  place : ι → Place
  handle : ι → Option Nat

/-- Nobody has come yet. -/
def start (t : Traffic ι) (m : Moment) : State ι where
  moment := m
  idle := Finset.range t.connections
  lock := .make t.locks
  place _ := .starting
  handle _ := none

/-- Whether a call takes turns with others. -/
def takesTurns (t : Traffic ι) (i : ι) : Bool := (t.mode i).needsLock t.serializeWrites && t.locks

/-- Where a call goes on that asks its context, and where it goes if the context is finished. At the
lock a context is asked only where the lock is needed. -/
def asks? (t : Traffic ι) (i : ι) : Place → Option (Place × (Ending → Place))
  | .starting => some (.connecting false, .ended)
  | .connecting false => some (.connecting true, .ended)
  | .locking c false => if t.takesTurns i then some (.locking c true, .returning c) else none
  | .opening c locked => some (.working c locked, .disarming c locked)
  | .finishing c locked => some (.committing c locked, .disarming c locked)
  | _ => none

/-- A call that goes from one place to another has there what it had. -/
structure Keeps (t : Traffic ι) (i : ι) (p p' : Place) : Prop where
  connection : p'.connection? = p.connection?
  locked : p'.isLocked = p.isLocked
  handle : p'.handle? = p.handle?
  gate : ∀ b, p'.gate? = some b → p.gate? = some b ∨ t.takesTurns i = b

namespace Keeps

variable {t : Traffic ι} {i : ι} {p p' : Place} {c : Nat} {locked : Bool}

theorem refl (t : Traffic ι) (i : ι) (p : Place) : t.Keeps i p p :=
  ⟨rfl, rfl, rfl, fun _ hb => Or.inl hb⟩

/-- The way to a place before the lock or behind it. -/
theorem aside (hgate : p'.gate? = none) (hconnection : p'.connection? = p.connection?)
    (hlocked : p'.isLocked = p.isLocked) (hhandle : p'.handle? = p.handle?) : t.Keeps i p p' :=
  ⟨hconnection, hlocked, hhandle, fun b hb => by rw [hgate] at hb; cases hb⟩

theorem of_asks? {onward : Place} {refuse : Ending → Place}
    (h : t.asks? i p = some (onward, refuse)) :
    t.Keeps i p onward ∧ ∀ ending, t.Keeps i p (refuse ending) := by
  cases p with
  | starting =>
    cases h
    exact ⟨.aside rfl rfl rfl rfl, fun _ => .aside rfl rfl rfl rfl⟩
  | connecting asked =>
    cases asked <;> cases h
    exact ⟨.aside rfl rfl rfl rfl, fun _ => .aside rfl rfl rfl rfl⟩
  | locking c asked =>
    cases asked
    · rw [asks?] at h
      split at h
      · next hturns =>
        cases h
        refine ⟨⟨rfl, rfl, rfl, fun b hb => Or.inr ?_⟩, fun _ => .aside rfl rfl rfl rfl⟩
        cases hb
        exact hturns
      · cases h
    · cases h
  | opening c locked =>
    cases h
    exact ⟨⟨rfl, rfl, rfl, fun _ hb => Or.inl hb⟩, fun _ => ⟨rfl, rfl, rfl, fun _ hb => Or.inl hb⟩⟩
  | finishing c locked =>
    cases h
    exact ⟨⟨rfl, rfl, rfl, fun _ hb => Or.inl hb⟩, fun _ => ⟨rfl, rfl, rfl, fun _ hb => Or.inl hb⟩⟩
  | _ => cases h

theorem of_again? (h : p.again? = some p') : t.Keeps i p p' := by
  cases p with
  | connecting asked =>
    cases asked <;> cases h
    exact .aside rfl rfl rfl rfl
  | locking c asked =>
    cases asked <;> cases h
    exact .aside rfl rfl rfl rfl
  | _ => cases h

/-- A statement that does not come through. -/
theorem of_breaks (h : p = .working c locked ∨ p = .committing c locked) (ending : Ending) :
    t.Keeps i p (.disarming c locked ending) := by
  rcases h with rfl | rfl <;> exact ⟨rfl, rfl, rfl, fun _ hb => Or.inl hb⟩

end Keeps

/-- Where a call can go without touching what it shares with others: it asks its context, or passes
by the lock, or its statements come to an end, or the engine commits. -/
inductive Walk (t : Traffic ι) (s : State ι) (i : ι) : Place → Prop
  | goesOn {onward : Place} {refuse : Ending →
      Place} (hasks : t.asks? i (s.place i) = some (onward, refuse))
    (hpending : (t.context i).causeAt s.moment = none) : Walk t s i onward
  | refused {onward : Place} {refuse : Ending → Place} {cause : Cause}
    (hasks : t.asks? i (s.place i) = some (onward, refuse))
    (hcause : (t.context i).causeAt s.moment = some cause) :
    Walk t s i (refuse (.refused cause))
  | passes {c : Nat} (hplace : s.place i = .locking c false) (hturns : t.takesTurns i = false) :
    Walk t s i (.arming c false)
  | works {c : Nat} {locked : Bool} (hplace : s.place i = .working c locked) :
      Walk t s i (.finishing c locked)
  | fails {c : Nat} {locked : Bool} (hplace : s.place i = .working c locked ∨
      s.place i = .committing c locked)
    (e : Error) : Walk t s i (.disarming c locked (.failed e))
  | panics {c : Nat} {locked : Bool} (hplace : s.place i = .working c locked ∨
      s.place i = .committing c locked) :
    Walk t s i (.disarming c locked .panicked)
  | commits {c : Nat} {locked : Bool} (hplace : s.place i = .committing c locked) :
    Walk t s i (.disarming c locked .committed)

theorem Walk.keeps {t : Traffic ι} {s : State ι} {i : ι} {p : Place} (h : t.Walk s i p) :
    t.Keeps i (s.place i) p := by
  cases h with
  | goesOn hasks => exact (Keeps.of_asks? hasks).1
  | refused hasks => exact (Keeps.of_asks? hasks).2 _
  | passes hplace hturns =>
    rw [hplace]
    refine ⟨rfl, rfl, rfl, fun b hb => Or.inr ?_⟩
    cases hb
    exact hturns
  | works hplace =>
    rw [hplace]
    exact ⟨rfl, rfl, rfl, fun _ hb => Or.inl hb⟩
  | fails hplace e => exact .of_breaks hplace _
  | panics hplace => exact .of_breaks hplace _
  | commits hplace => exact .of_breaks (Or.inr hplace) _

/-! ## Connections, the lock and the handles -/

/-- Every connection is idle or with one call. -/
structure Pooled (t : Traffic ι) (s : State ι) : Prop where
  lt : ∀ c ∈ s.idle, c < t.connections
  out : ∀ i c, (s.place i).connection? = some c → c < t.connections ∧ c ∉ s.idle
  single : ∀ i j c, (s.place i).connection? = some c → (s.place j).connection? = some c → i = j
  kept : ∀ c < t.connections, c ∈ s.idle ∨ ∃ i, (s.place i).connection? = some c

/-- The lock is held by one call, or by none. -/
structure Guarded (t : Traffic ι) (s : State ι) : Prop where
  enabled : s.lock.isEnabled = t.locks
  single : ∀ i j, (s.place i).isLocked = true → (s.place j).isLocked = true → i = j
  held : s.lock = .held ↔ ∃ i, (s.place i).isLocked = true

/-- Calls that take turns wait for the lock and have it beyond, and others do neither. -/
def Gated (t : Traffic ι) (s : State ι) : Prop :=
  ∀ i b, (s.place i).gate? = some b → t.takesTurns i = b

/-- The handle of a call reaches the connection that it has, from its opening on until it is
taken back. -/
def Armed (s : State ι) : Prop := ∀ i, s.handle i = (s.place i).handle?

variable {t : Traffic ι} {s s' : State ι} {i j : ι} {c : Nat}

namespace Pooled

/-- Only connections count. -/
theorem of_eq (h : t.Pooled s) (hidle : s'.idle = s.idle)
    (hconnection : ∀ j, (s'.place j).connection? = (s.place j).connection?) : t.Pooled s' where
  lt := by
    rw [hidle]
    exact h.lt
  out := by
    simp only [hidle, hconnection]
    exact h.out
  single := by
    simp only [hconnection]
    exact h.single
  kept := by
    simp only [hidle, hconnection]
    exact h.kept

/-- A call takes a connection. -/
theorem take (h : t.Pooled s) (hnone : (s.place i).connection? = none) (hc : c ∈ s.idle)
    (hidle : s'.idle = s.idle.erase c) (hsome : (s'.place i).connection? = some c)
    (hothers : ∀ j, j ≠ i → (s'.place j).connection? = (s.place j).connection?) : t.Pooled s' := by
  have hbusy : ∀ j, (s.place j).connection? ≠ some c := fun j hj => (h.out j c hj).2 hc
  -- whoever has a connection afterwards is the one who took it, or had it before
  have hcases : ∀ j d, (s'.place j).connection? = some d →
      j = i ∧ d = c ∨ j ≠ i ∧ (s.place j).connection? = some d := by
    intro j d hd
    by_cases hji : j = i
    · rw [hji, hsome] at hd
      exact Or.inl ⟨hji, (Option.some.inj hd).symm⟩
    · rw [hothers j hji] at hd
      exact Or.inr ⟨hji, hd⟩
  refine ⟨?lt, ?out, ?single, ?kept⟩
  case lt =>
    rw [hidle]
    exact fun d hd => h.lt d (Finset.mem_of_mem_erase hd)
  case out =>
    intro j d hd
    rw [hidle]
    rcases hcases j d hd with ⟨-, rfl⟩ | ⟨-, hd⟩
    · exact ⟨h.lt d hc, Finset.notMem_erase d s.idle⟩
    · exact ⟨(h.out j d hd).1, fun hmem => (h.out j d hd).2 (Finset.mem_of_mem_erase hmem)⟩
  case single =>
    intro j k d hj hk
    rcases hcases j d hj with ⟨rfl, rfl⟩ | ⟨-, hj⟩ <;> rcases hcases k _ hk with ⟨rfl, hsame⟩ |
      ⟨-, hk⟩
    · rfl
    · exact absurd hk (hbusy k)
    · exact absurd (hsame ▸ hj) (hbusy j)
    · exact h.single j k d hj hk
  case kept =>
    intro d hd
    rw [hidle]
    by_cases hsame : d = c
    · exact Or.inr ⟨i, hsame ▸ hsome⟩
    · rcases h.kept d hd with hmem | ⟨j, hj⟩
      · exact Or.inl (Finset.mem_erase.2 ⟨hsame, hmem⟩)
      · refine Or.inr ⟨j, ?_⟩
        rw [hothers j, hj]
        rintro rfl
        rw [hnone] at hj
        cases hj

/-- A call gives its connection back. -/
theorem give (h : t.Pooled s) (hsome : (s.place i).connection? = some c)
    (hidle : s'.idle = insert c s.idle) (hnone : (s'.place i).connection? = none)
    (hothers : ∀ j, j ≠ i → (s'.place j).connection? = (s.place j).connection?) : t.Pooled s' := by
  -- whoever has a connection afterwards is another one, and had it before
  have hcases : ∀ j d, (s'.place j).connection? = some d →
      j ≠ i ∧ (s.place j).connection? = some d := by
    intro j d hd
    by_cases hji : j = i
    · rw [hji, hnone] at hd
      cases hd
    · rw [hothers j hji] at hd
      exact ⟨hji, hd⟩
  refine ⟨?lt, ?out, ?single, ?kept⟩
  case lt =>
    rw [hidle]
    intro d hd
    rcases Finset.mem_insert.1 hd with rfl | hd
    · exact (h.out i d hsome).1
    · exact h.lt d hd
  case out =>
    intro j d hd
    obtain ⟨hne, hd⟩ := hcases j d hd
    rw [hidle]
    refine ⟨(h.out j d hd).1, fun hmem => ?_⟩
    rcases Finset.mem_insert.1 hmem with rfl | hmem
    · exact hne (h.single j i d hd hsome)
    · exact (h.out j d hd).2 hmem
  case single => exact fun j k d hj hk => h.single j k d (hcases j d hj).2 (hcases k d hk).2
  case kept =>
    intro d hd
    rw [hidle]
    rcases h.kept d hd with hmem | ⟨j, hj⟩
    · exact Or.inl (Finset.mem_insert_of_mem hmem)
    · by_cases hji : j = i
      · rw [hji, hsome] at hj
        cases hj
        exact Or.inl (Finset.mem_insert_self c s.idle)
      · exact Or.inr ⟨j, (hothers j hji).trans hj⟩

/-- No more connections are out than there are. -/
theorem card_le (h : t.Pooled s) (calls : Finset ι)
    (hcalls : ∀ i ∈ calls, (s.place i).connection?.isSome) : calls.card ≤ t.connections := by
  rw [← Finset.card_range t.connections]
  refine Finset.card_le_card_of_injOn (fun i => (s.place i).connection?.getD 0) ?_ ?_
  · intro i hi
    obtain ⟨c, hc⟩ := Option.isSome_iff_exists.1 (hcalls i hi)
    simp only [hc, Option.getD_some, Finset.coe_range, Set.mem_Iio]
    exact (h.out i c hc).1
  · intro i hi j hj hsame
    obtain ⟨c, hc⟩ := Option.isSome_iff_exists.1 (hcalls i hi)
    obtain ⟨d, hd⟩ := Option.isSome_iff_exists.1 (hcalls j hj)
    have hsame : c = d := by simpa only [hc, hd, Option.getD_some] using hsame
    exact h.single i j c hc (hsame ▸ hd)

end Pooled

namespace Guarded

/-- Only the lock counts. -/
theorem of_eq (h : t.Guarded s) (hlock : s'.lock = s.lock)
    (hlocked : ∀ j, (s'.place j).isLocked = (s.place j).isLocked) : t.Guarded s' where
  enabled := by
    rw [hlock]
    exact h.enabled
  single := by
    simp only [hlocked]
    exact h.single
  held := by
    simp only [hlock, hlocked]
    exact h.held

/-- A call gets the lock, which nobody has. -/
theorem acquire (h : t.Guarded s) {lock : WriteLock}
    (hfree : s.lock.tryAcquire none = (.granted, lock)) (hlock : s'.lock = lock)
    (hlocked : (s'.place i).isLocked = true)
    (hothers : ∀ j, j ≠ i → (s'.place j).isLocked = (s.place j).isLocked) : t.Guarded s' := by
  obtain ⟨hwas, rfl⟩ : s.lock = .free ∧ lock = .held := by
    rcases hbefore : s.lock with _ | _ | _ <;> rw [hbefore] at hfree <;> cases hfree
    exact ⟨rfl, rfl⟩
  have hnobody : ∀ j, (s.place j).isLocked ≠ true := by
    intro j hj
    have hheld := h.held.2 ⟨j, hj⟩
    rw [hwas] at hheld
    cases hheld
  have honly : ∀ j, (s'.place j).isLocked = true → j = i := by
    intro j hj
    by_contra hne
    rw [hothers j hne] at hj
    exact hnobody j hj
  refine ⟨?_, fun j k hj hk => (honly j hj).trans (honly k hk).symm, ?_⟩
  · rw [hlock, ← h.enabled, hwas]
    rfl
  · rw [hlock]
    exact ⟨fun _ => ⟨i, hlocked⟩, fun _ => rfl⟩

/-- A call lets the lock go, if it has it. -/
theorem release (h : t.Guarded s)
    (hlock : s'.lock = if (s.place i).isLocked then s.lock.release else s.lock)
    (hlocked : (s'.place i).isLocked = false)
    (hothers : ∀ j, j ≠ i → (s'.place j).isLocked = (s.place j).isLocked) : t.Guarded s' := by
  have hcases : ∀ j, (s'.place j).isLocked = true → j ≠ i ∧ (s.place j).isLocked = true := by
    intro j hj
    have hne : j ≠ i := by
      rintro rfl
      rw [hlocked] at hj
      cases hj
    exact ⟨hne, (hothers j hne).symm.trans hj⟩
  refine ⟨?enabled, fun j k hj hk => h.single j k (hcases j hj).2 (hcases k hk).2, ?held⟩
  case enabled =>
    rw [← h.enabled, hlock]
    split
    · cases s.lock <;> rfl
    · rfl
  case held =>
    rw [hlock]
    split
    · next hmine =>
      have hnot : s.lock.release ≠ .held := by cases s.lock <;> exact WriteLock.noConfusion
      refine ⟨fun hheld => absurd hheld hnot, ?_⟩
      rintro ⟨j, hj⟩
      exact absurd (h.single j i (hcases j hj).2 hmine) (hcases j hj).1
    · next hnot =>
      rw [h.held]
      constructor
      · rintro ⟨j, hj⟩
        refine ⟨j, (hothers j ?_).trans hj⟩
        rintro rfl
        exact hnot hj
      · rintro ⟨j, hj⟩
        exact ⟨j, (hcases j hj).2⟩

end Guarded

section Steps

variable [DecidableEq ι]

namespace State

/-- A call is somewhere else. -/
def put (s : State ι) (i : ι) (p : Place) : State ι :=
  { s with place := fun j => if j = i then p else s.place j }

/-- The handle of a call is another one. -/
def publish (s : State ι) (i : ι) (handle : Option Nat) : State ι :=
  { s with handle := fun j => if j = i then handle else s.handle j }

end State

/-- A step that a call takes by itself. -/
inductive Move (t : Traffic ι) (i : ι) (s : State ι) : State ι → Prop
  | walks {p : Place} (hwalk : Walk t s i p) : Move t i s (s.put i p)
  | takes {c : Nat} (hplace : s.place i = .connecting true) (hidle : c ∈ s.idle) :
    Move t i s { s.put i (.locking c false) with idle := s.idle.erase c }
  | acquires {c : Nat} {lock : WriteLock} (hplace : s.place i = .locking c true)
    (hfree : s.lock.tryAcquire none = (.granted, lock)) :
    Move t i s { s.put i (.arming c true) with lock }
  | arms {c : Nat} {locked : Bool} (hplace : s.place i = .arming c locked) :
    Move t i s ((s.put i (.opening c locked)).publish i (some c))
  | disarms {c : Nat} {locked : Bool} {ending : Ending}
      (hplace : s.place i = .disarming c locked ending) :
    Move t i s ((s.put i (.unlocking c locked ending)).publish i none)
  | unlocks {c : Nat} {locked : Bool} {ending : Ending}
      (hplace : s.place i = .unlocking c locked ending) :
    Move t i s { s.put i (.returning c ending) with lock := if locked then s.lock.release
      else s.lock }
  | returns {c : Nat} {ending : Ending} (hplace : s.place i = .returning c ending) :
    Move t i s { s.put i (.ended ending) with idle := insert c s.idle }

/-- The connection that the handle of a call reaches is interrupted, as the context of this call is
finished. It strikes whoever runs a statement there. -/
inductive Strike (t : Traffic ι) (i j : ι) (s : State ι) : State ι → Prop
  | strikes {c : Nat} {locked : Bool} (hfinished : (t.context i).causeAt s.moment ≠ none)
      (hhandle : s.handle i = some c)
    (hplace : s.place j = .working c locked ∨ s.place j = .committing c locked) :
    Strike t i j s (s.put j (.disarming c locked (.failed (.query .interrupted))))

/-- What happens besides: time passes and contexts are cancelled, someone has waited for a while or
for too long, or is interrupted. -/
inductive Event (t : Traffic ι) (s : State ι) : State ι → Prop
  | passes {m : Moment} (hle : s.moment ≤ m) : Event t s { s with moment := m }
  | lapses {i : ι} {p : Place} (hagain : (s.place i).again? = some p) : Event t s (s.put i p)
  | exhausts {i : ι} (hplace : s.place i = .connecting true) :
      Event t s (s.put i (.ended .exhausted))
  | strikes {i j : ι} {s' : State ι} (hstrike : t.Strike i j s s') : Event t s s'

/-- A step of the traffic. -/
def Step (t : Traffic ι) (s s' : State ι) : Prop := (∃ i, t.Move i s s') ∨ t.Event s s'

/-- What can come of the traffic. -/
def Reachable (t : Traffic ι) (s : State ι) : Prop :=
  ∃ m, Relation.ReflTransGen t.Step (t.start m) s

theorem Reachable.step (h : t.Reachable s) (hstep : t.Step s s') : t.Reachable s' := by
  obtain ⟨m, hsteps⟩ := h
  exact ⟨m, hsteps.tail hstep⟩

theorem Reachable.move (h : t.Reachable s) (hmove : t.Move i s s') : t.Reachable s' :=
  h.step (Or.inl ⟨i, hmove⟩)

theorem Reachable.event (h : t.Reachable s) (hevent : t.Event s s') : t.Reachable s' :=
  h.step (Or.inr hevent)

/-- A call asks its context and goes on. -/
theorem Reachable.asks (h : t.Reachable s) {onward : Place} {refuse : Ending → Place}
    (hasks : t.asks? i (s.place i) = some (onward, refuse))
    (hpending : (t.context i).causeAt s.moment = none) :
    t.Reachable (s.put i onward) := h.move (.walks (.goesOn hasks hpending))

/-! ### What a step can do -/

theorem place_put (s : State ι) (i j : ι) (p : Place) :
    (s.put i p).place j = if j = i then p else s.place j := rfl

@[simp] theorem place_put_self (s : State ι) (i : ι) (p : Place) : (s.put i p).place i = p :=
  if_pos rfl

@[simp] theorem place_publish (s : State ι) (i : ι) (handle : Option Nat) :
    (s.publish i handle).place = s.place := rfl

theorem place_put_of_ne (s : State ι) (p : Place) (h : j ≠ i) : (s.put i p).place j = s.place j :=
  if_neg h

/-- What is as it was of the call that went elsewhere is as it was of all. -/
theorem view_put {α : Type} {view : Place → α} {p : Place} (h : view p = view (s.place i)) (j : ι) :
    view ((s.put i p).place j) = view (s.place j) := by
  rw [place_put]
  split
  · next hsame => rw [h, hsame]
  · rfl

theorem keeps_put {p : Place} (h : t.Keeps i (s.place i) p) (j : ι) :
    t.Keeps j (s.place j) ((s.put i p).place j) := by
  rw [place_put]
  split
  · next hsame =>
    rw [hsame]
    exact h
  · exact .refl t j _

/-- What a step does to what is shared, and to what calls have. -/
inductive Effect (t : Traffic ι) (s : State ι) : State ι → Prop
  /-- all have what they had -/
  | keeps {s' : State ι} (hkeeps : ∀ j, t.Keeps j (s.place j) (s'.place j))
      (hidle : s'.idle = s.idle)
    (hlock : s'.lock = s.lock) (hhandle : s'.handle = s.handle) : Effect t s s'
  | takes {i : ι} {c : Nat} (hplace : s.place i = .connecting true) (hidle : c ∈ s.idle) :
    Effect t s { s.put i (.locking c false) with idle := s.idle.erase c }
  | acquires {i : ι} {c : Nat} {lock : WriteLock} (hplace : s.place i = .locking c true)
    (hfree : s.lock.tryAcquire none = (.granted, lock)) :
    Effect t s { s.put i (.arming c true) with lock }
  | arms {i : ι} {c : Nat} {locked : Bool} (hplace : s.place i = .arming c locked) :
    Effect t s ((s.put i (.opening c locked)).publish i (some c))
  | disarms {i : ι} {c : Nat} {locked : Bool} {ending : Ending}
      (hplace : s.place i = .disarming c locked ending) :
    Effect t s ((s.put i (.unlocking c locked ending)).publish i none)
  | unlocks {i : ι} {c : Nat} {locked : Bool} {ending : Ending}
      (hplace : s.place i = .unlocking c locked ending) :
    Effect t s { s.put i (.returning c ending) with lock := if locked then s.lock.release
      else s.lock }
  | returns {i : ι} {c : Nat} {ending : Ending} (hplace : s.place i = .returning c ending) :
    Effect t s { s.put i (.ended ending) with idle := insert c s.idle }

/-- **What a step can do.** -/
theorem Step.effect (h : t.Step s s') : t.Effect s s' := by
  rcases h with ⟨i, hmove⟩ | hevent
  · cases hmove with
    | walks hwalk => exact .keeps (keeps_put hwalk.keeps) rfl rfl rfl
    | takes hplace hidle => exact .takes hplace hidle
    | acquires hplace hfree => exact .acquires hplace hfree
    | arms hplace => exact .arms hplace
    | disarms hplace => exact .disarms hplace
    | unlocks hplace => exact .unlocks hplace
    | returns hplace => exact .returns hplace
  · cases hevent with
    | passes => exact .keeps (fun j => .refl t j _) rfl rfl rfl
    | lapses hagain => exact .keeps (keeps_put (.of_again? hagain)) rfl rfl rfl
    | exhausts hplace =>
      refine .keeps (keeps_put ?_) rfl rfl rfl
      rw [hplace]
      exact .aside rfl rfl rfl rfl
    | strikes hstrike =>
      cases hstrike with
      | strikes _ _ hplace => exact .keeps (keeps_put (.of_breaks hplace _)) rfl rfl rfl

/-! ### What a step keeps -/

theorem Pooled.step (h : t.Pooled s) (hstep : t.Step s s') : t.Pooled s' := by
  cases hstep.effect with
  | keeps hkeeps hidle => exact h.of_eq hidle fun j => (hkeeps j).connection
  | @takes i c hplace hidle =>
    exact h.take (by rw [hplace]; rfl) hidle rfl (congrArg _ (place_put_self s i _))
      fun j hne => congrArg _ (place_put_of_ne s _ hne)
  | acquires hplace => exact h.of_eq rfl (view_put (by rw [hplace]; rfl))
  | arms hplace => exact h.of_eq rfl (view_put (by rw [hplace]; rfl))
  | disarms hplace => exact h.of_eq rfl (view_put (by rw [hplace]; rfl))
  | unlocks hplace => exact h.of_eq rfl (view_put (by rw [hplace]; rfl))
  | @returns i c ending hplace =>
    exact h.give (by rw [hplace]; rfl) rfl (congrArg _ (place_put_self s i _))
      fun j hne => congrArg _ (place_put_of_ne s _ hne)

theorem Guarded.step (h : t.Guarded s) (hstep : t.Step s s') : t.Guarded s' := by
  cases hstep.effect with
  | keeps hkeeps _ hlock => exact h.of_eq hlock fun j => (hkeeps j).locked
  | takes hplace => exact h.of_eq rfl (view_put (by rw [hplace]; rfl))
  | @acquires i c lock hplace hfree =>
    exact h.acquire hfree rfl (congrArg _ (place_put_self s i _)) fun j hne =>
      congrArg _ (place_put_of_ne s _ hne)
  | arms hplace => exact h.of_eq rfl (view_put (by rw [hplace]; rfl))
  | disarms hplace => exact h.of_eq rfl (view_put (by rw [hplace]; rfl))
  | @unlocks i c locked ending hplace =>
    refine h.release ?_ (congrArg _ (place_put_self s i _)) fun j hne =>
      congrArg _ (place_put_of_ne s _ hne)
    rw [hplace]
    rfl
  | returns hplace => exact h.of_eq rfl (view_put (by rw [hplace]; rfl))

/-- A call whose place tells no more than before keeps to the gate. -/
theorem Gated.put (h : t.Gated s) {p : Place} (hgate : ∀ b, p.gate? = some b →
    (s.place i).gate? = some b) : t.Gated (s.put i p) := by
  intro j b hb
  rw [place_put] at hb
  split at hb
  · next hsame =>
    rw [hsame]
    exact h i b (hgate b hb)
  · exact h j b hb

theorem Gated.step (h : t.Gated s) (hstep : t.Step s s') : t.Gated s' := by
  cases hstep.effect with
  | keeps hkeeps =>
    intro j b hb
    rcases (hkeeps j).gate b hb with hbefore | hturns
    · exact h j b hbefore
    · exact hturns
  | takes => exact h.put fun _ hb => by cases hb
  | acquires hplace => exact h.put fun _ hb => by rw [hplace]; exact hb
  | arms hplace => exact h.put fun _ hb => by rw [hplace]; exact hb
  | disarms hplace => exact h.put fun _ hb => by rw [hplace]; exact hb
  | unlocks => exact h.put fun _ hb => by cases hb
  | returns => exact h.put fun _ hb => by cases hb

/-- A call whose handle reaches what it reached. -/
theorem Armed.put (h : Armed s) {p : Place} (hhandle : p.handle? = (s.place i).handle?) :
    Armed (s.put i p) :=
  fun j => (h j).trans (view_put hhandle j).symm

/-- A call publishes what can be reached of it where it is now. -/
theorem Armed.publish (h : Armed s) (i : ι) (p : Place) :
    Armed ((s.put i p).publish i p.handle?) := by
  intro j
  show (if j = i then p.handle? else s.handle j) = (if j = i then p else s.place j).handle?
  split
  · rfl
  · exact h j

theorem Armed.step (h : Armed s) (hstep : t.Step s s') : Armed s' := by
  cases hstep.effect with
  | keeps hkeeps _ _ hhandle =>
    intro j
    rw [hhandle, h j]
    exact (hkeeps j).handle.symm
  | takes hplace => exact h.put (by rw [hplace]; rfl)
  | acquires hplace => exact h.put (by rw [hplace]; rfl)
  | arms => exact h.publish _ (.opening _ _)
  | disarms => exact h.publish _ (.unlocking _ _ _)
  | unlocks hplace => exact h.put (by rw [hplace]; rfl)
  | returns hplace => exact h.put (by rw [hplace]; rfl)

/-- What is always true. -/
structure Orderly (t : Traffic ι) (s : State ι) : Prop where
  pooled : t.Pooled s
  guarded : t.Guarded s
  gated : t.Gated s
  armed : Armed s

theorem Orderly.step (h : t.Orderly s) (hstep : t.Step s s') : t.Orderly s' where
  pooled := h.pooled.step hstep
  guarded := h.guarded.step hstep
  gated := h.gated.step hstep
  armed := h.armed.step hstep

omit [DecidableEq ι] in
theorem orderly_start (t : Traffic ι) (m : Moment) : t.Orderly (t.start m) where
  pooled :=
    { lt := fun c hc => Finset.mem_range.1 hc
      out := fun _ _ hc => by cases hc
      single := fun _ _ _ hc => by cases hc
      kept := fun c hc => Or.inl (Finset.mem_range.2 hc) }
  guarded :=
    { enabled := by rcases hlocks : t.locks <;> simp only [start, hlocks] <;> rfl
      single := fun _ _ hi => by cases hi
      held := by
        refine ⟨fun hheld => ?_, fun ⟨_, hi⟩ => by cases hi⟩
        rcases hlocks : t.locks <;> simp only [start, hlocks] at hheld <;> cases hheld }
  gated _ _ hb := by cases hb
  armed _ := rfl

/-- **At every moment all is in order.** -/
theorem Reachable.orderly (h : t.Reachable s) : t.Orderly s := by
  obtain ⟨m, hsteps⟩ := h
  induction hsteps with
  | refl => exact t.orderly_start m
  | tail _ hstep ih => exact ih.step hstep

end Steps

end Traffic

end RevisionLog
