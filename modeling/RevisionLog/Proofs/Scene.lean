import RevisionLog.Proofs.Passing
import RevisionLog.Proofs.Pulls

/-!
# What a watcher does to a log that anything may happen to

Here others do to a log whatever they like between any two transactions of a watcher, and any
transaction can fail for any reason. Every transaction is written down on the page of its fetch,
with the log that it found and left.

* `Log.Lacks` — an id is missing below a greater one; `Log.lacks_of_absorb` — a read that says so is
  right.
* `Disturbance`, `Attempt`, `Scene` — what happens to a log, and what a watcher did there.
* `Pulling`, `Trial` — what is done with a watcher, and what came of it.
* `Scene.Account` — where the attempts took the watcher, and what they showed it;
  `Scene.Account.fetch` keeps it.
-/

namespace RevisionLog

open Store Watcher

/-! ## Reads of any log -/

namespace Log

variable {log : Log} {position : Int} {batch : Nat} {es : List Entry}

/-- An id is missing, and a greater one is there. -/
def Lacks (log : Log) (id : Int) : Prop := (∀ r ∈ log.rows, r.id ≠ id) ∧ ∃ r ∈ log.rows, id < r.id

instance (log : Log) (id : Int) : Decidable (log.Lacks id) := inferInstanceAs (Decidable (_ ∧ _))

/-- Rows that were read stand for entries of their ids. -/
theorem revisions_of_mapM_entry {rows : List Row} (h : rows.mapM Row.entry = .ok es) :
    es.map Entry.revision = rows.map Row.id := by
  induction rows generalizing es with
  | nil =>
    cases h
    rfl
  | cons r rows ih =>
    rw [List.mapM_cons] at h
    obtain ⟨e, he, h⟩ := of_bind_eq_ok h
    obtain ⟨es', hes', h⟩ := of_bind_eq_ok h
    cases h
    rw [List.map_cons, List.map_cons, ih hes', (Row.of_entry_eq_ok he).1]

/-- A read that went well answers the first rows above its position, which is not below the
watermark. -/
theorem of_since_eq_ok (h : Store.since log position batch = .ok es) :
    (∃ watermark, Store.compactedTo log = .ok watermark ∧ watermark ≤ position) ∧
      ∃ front back, log.rows.filter (position < ·.id) = front ++ back ∧
        front.mapM Row.entry = .ok es ∧ (0 < batch → front = [] → back = []) := by
  obtain ⟨watermark, hwatermark, h⟩ := of_bind_eq_ok h
  split at h
  · cases h
  · next hle =>
    refine ⟨⟨watermark, hwatermark, Int.not_lt.1 hle⟩, ?_⟩
    have hafter : log.after position batch = .ok es := ask_eq_ok.1 h
    rw [after] at hafter
    split at hafter
    · refine ⟨_, _, (List.take_append_drop batch _).symm, hafter, ?_⟩
      intro hbatch hnone
      rw [List.take_eq_nil_iff] at hnone
      rcases hnone with hzero | hnil
      · omega
      · rw [hnil, List.drop_nil]
    · exact ⟨_, [], (List.append_nil _).symm, hafter, fun _ _ => rfl⟩

/-- **A read that says that an id is missing is right**, and a greater one is there. -/
theorem lacks_of_absorb (h : Store.since log position batch = .ok es) {reached id : Int}
    {taken : List Entry} (habsorb : absorb position es = (reached, taken, some id)) :
    id = reached + 1 ∧ log.Lacks id := by
  obtain ⟨front', rest, rfl, htrail, -, hend⟩ := exists_split_of_absorb habsorb
  rcases hend with ⟨hnone, -⟩ | ⟨hid, e, rest', rfl, hne⟩
  · cases hnone
  · obtain rfl : id = reached + 1 := Option.some.inj hid
    obtain ⟨-, front, back, hrows, hread, -⟩ := of_since_eq_ok h
    have hrevisions := revisions_of_mapM_entry hread
    -- the ids that were read are in order, and so are those that were not
    have hordered := log.ordered.filter (position < ·.id)
    rw [hrows] at hordered
    have hfront : (front.map Row.id).Pairwise (· < ·) :=
      List.pairwise_map.2 (List.pairwise_append.1 hordered).1
    rw [← hrevisions, List.map_append, List.pairwise_append, List.map_cons,
      List.pairwise_cons] at hfront
    obtain ⟨-, ⟨hrest, -⟩, hbefore⟩ := hfront
    have hmem : ∀ r, r ∈ front ∨ r ∈ back ↔ r ∈ log.rows ∧ position < r.id := by
      intro r
      rw [← List.mem_append, ← hrows, List.mem_filter, decide_eq_true_iff]
    -- the first row that does not follow lies above the missing id
    have hfound : e.revision ∈ front.map Row.id := by
      rw [← hrevisions]
      exact List.mem_map_of_mem (List.mem_append_right _ List.mem_cons_self)
    obtain ⟨s, hs, hsid⟩ := List.mem_map.1 hfound
    have habove : reached < e.revision := by
      by_contra hle
      have hposition := ((hmem s).1 (Or.inl hs)).2
      obtain ⟨f, hf, hfid⟩ := htrail.exists_mem (show position < e.revision by omega) (by omega)
      have hlt := hbefore f.revision (List.mem_map_of_mem hf) e.revision List.mem_cons_self
      omega
    refine ⟨rfl, ?_, s, ((hmem s).1 (Or.inl hs)).1, by omega⟩
    intro r hr hrid
    have hle := htrail.le
    rcases (hmem r).2 ⟨hr, by omega⟩ with hin | hout
    · have hin : r.id ∈ (front' ++ e :: rest').map Entry.revision := by
        rw [hrevisions]
        exact List.mem_map_of_mem hin
      rw [List.map_append, List.mem_append, List.map_cons, List.mem_cons] at hin
      rcases hin with hin | hin | hin
      · obtain ⟨f, hf, hfid⟩ := List.mem_map.1 hin
        have hbound := (htrail.bounds hf).2
        omega
      · omega
      · have hlt := hrest _ hin
        omega
    · have hlt := (List.pairwise_append.1 hordered).2.2 s hs r hout
      omega

/-- A read begins with the row of the next id, if one stands there. -/
theorem since_cons_of_mem (h : Store.since log position batch = .ok es) (hbatch : 0 < batch)
    {r : Row} (hr : r ∈ log.rows) (hid : r.id = position + 1) :
    ∃ e rest, es = e :: rest ∧ r.entry = .ok e := by
  obtain ⟨-, front, back, hrows, hread, hfull⟩ := of_since_eq_ok h
  have hmem : ∀ s, s ∈ front ++ back ↔ s ∈ log.rows ∧ position < s.id := by
    intro s
    rw [← hrows, List.mem_filter, decide_eq_true_iff]
  have hordered := log.ordered.filter (position < ·.id)
  rw [hrows] at hordered
  have hfound := (hmem r).2 ⟨hr, by omega⟩
  rcases front with _ | ⟨s, front⟩
  · rw [hfull hbatch rfl] at hfound
    cases hfound
  · have hs := (hmem s).1 List.mem_cons_self
    rw [List.cons_append] at hordered hfound
    obtain ⟨hfirst, -⟩ := List.pairwise_cons.1 hordered
    obtain rfl : r = s := by
      rcases List.mem_cons.1 hfound with rfl | hlater
      · rfl
      · have hlt := hfirst r hlater
        omega
    rw [List.mapM_cons] at hread
    obtain ⟨e, he, hread⟩ := of_bind_eq_ok hread
    obtain ⟨rest, -, hread⟩ := of_bind_eq_ok hread
    cases hread
    exact ⟨e, rest, rfl, he⟩

end Log

/-! ## Scenes -/

/-- What happens before a transaction of a watcher: others do anything to the log, and the
transaction may come to nothing for any reason. -/
structure Disturbance where
  change : Log → Log := id
  failure : Option Error := none

/-- What a watcher did in a transaction, with the log that it found. -/
inductive Attempt
  | read (position : Int) (log : Log) (answer : Except Error (List Entry))
  | claim (id : Int) (log : Log) (answer : Except Error Unit) (after : Log)

namespace Attempt

/-- The log that an attempt found. -/
def before : Attempt → Log
  | read _ log _ => log
  | claim _ log _ _ => log

/-- The log that an attempt left. -/
def after : Attempt → Log
  | read _ log _ => log
  | claim _ _ _ after => after

/-- Where the watcher stood: an id is claimed that follows its position. -/
def position : Attempt → Int
  | read position _ _ => position
  | claim id _ _ _ => id - 1

/-- Where the watcher stood afterwards. -/
def reached : Attempt → Int
  | read position _ (.ok rows) => (absorb position rows).1
  | read position _ (.error _) => position
  | claim id _ _ _ => id - 1

/-- What an attempt showed the watcher, apart from placeholders. -/
def shown : Attempt → List Entry
  | read position _ (.ok rows) => (absorb position rows).2.1
  | read _ _ (.error _) => []
  | claim _ _ _ _ => []

/-- A read that went well. -/
def isReading : Attempt → Bool
  | read _ _ (.ok _) => true
  | read _ _ (.error _) => false
  | claim _ _ _ _ => false

/-- An attempt after which its fetch goes on or comes to its end without an error. -/
def isFine : Attempt → Bool
  | read _ _ answer => answer.isOk
  | claim _ _ answer _ => (settled answer).isNone

/-- A read that went well found an id above its position missing below a greater one. -/
def Misses (id : Int) : Attempt → Prop
  | read position log (.ok _) => position < id ∧ log.Lacks id
  | read _ _ (.error _) => False
  | claim _ _ _ _ => False

end Attempt

/-- What attempts showed the watcher, of which the last one comes first. -/
def shownBy : List Attempt → List Entry
  | [] => []
  | attempt :: earlier => shownBy earlier ++ attempt.shown

/-- A log, what is still to happen before each transaction and at each pause, and what the watcher
did so far: a page for every fetch, the last page and on it the last attempt first. -/
structure Scene where
  log : Log
  disturbances : List Disturbance := []
  rests : List Rest := []
  pages : List (List Attempt) := []

namespace Scene

/-- All attempts, the last one first. -/
def attempts (s : Scene) : List Attempt := s.pages.flatten

/-- Begins the page of a fetch. -/
def turnPage (s : Scene) : Scene := { s with pages := [] :: s.pages }

/-- Writes an attempt down. -/
def note (s : Scene) (attempt : Attempt) : Scene :=
  match s.pages with
  | [] => { s with pages := [[attempt]] }
  | page :: pages => { s with pages := (attempt :: page) :: pages }

/-- Begins a transaction. Where nothing more is told, nothing happens. -/
def disturb (s : Scene) : Option Error × Scene :=
  match s.disturbances with
  | [] => (none, s)
  | d :: disturbances => (d.failure, { s with log := d.change s.log, disturbances })

/-- The answer of a transaction that can come to nothing. -/
def outcome {α : Type} (failure : Option Error) (answer : Except Error α) : Except Error α :=
  match failure with
  | some e => .error e
  | none => answer

/-- Reads rows, at least one at a time. -/
def read (batch : Nat) (position : Int) : StateM Scene (Except Error (List Entry)) := fun s =>
  match s.disturb with
  | (failure, s) =>
    let answer := outcome failure (Store.since s.log position (max batch 1))
    (answer, s.note (.read position s.log answer))

/-- Claims an id. -/
def claim (id : Int) : StateM Scene (Except Error Unit) := fun s =>
  match s.disturb with
  | (failure, s) =>
    match outcome failure (Store.fill s.log id) with
    | .error e => (.error e, s.note (.claim id s.log (.error e) s.log))
    | .ok after => (.ok (), { s with log := after }.note (.claim id s.log (.ok ()) after))

/-- How a watcher in a scene reaches the log. -/
def source (batch : Nat) : Watcher.Source (StateM Scene) where
  read := read batch
  claim := claim

/-- A pause. Where nothing more is told, it just ends. -/
def pause : StateM Scene Rest := fun s =>
  match s.rests with
  | [] => (.over, s)
  | rest :: rests => (rest, { s with rests })

/-- The bound of a fetch, which is about to begin. -/
def bounded (bound : Log → Nat) : StateM Scene Nat := fun s => (bound s.log + 1, s.turnPage)

section Notes

variable (s : Scene) (attempt : Attempt)

@[simp] theorem log_note : (s.note attempt).log = s.log := by
  unfold note
  split <;> rfl

@[simp] theorem disturbances_note : (s.note attempt).disturbances = s.disturbances := by
  unfold note
  split <;> rfl

@[simp] theorem rests_note : (s.note attempt).rests = s.rests := by
  unfold note
  split <;> rfl

@[simp] theorem attempts_note : (s.note attempt).attempts = attempt :: s.attempts := by
  unfold note attempts
  split
  · next hpages => rw [hpages]; rfl
  · next hpages => rw [hpages]; rfl

@[simp] theorem attempts_turnPage : s.turnPage.attempts = s.attempts := rfl

variable {s} {page : List Attempt} {older : List (List Attempt)}

theorem pages_note (hpages : s.pages = page :: older) (attempt : Attempt) :
    (s.note attempt).pages = (attempt :: page) :: older := by
  rw [note, hpages]

end Notes

variable {s s' : Scene} {batch : Nat}

/-- What went well did not come to nothing. -/
theorem of_outcome_eq_ok {α : Type} {failure : Option Error} {answer : Except Error α} {a : α}
    (h : outcome failure answer = .ok a) : answer = .ok a := by
  rcases failure with _ | e
  · exact h
  · cases h

/-- A read is written down with the log that it found. -/
theorem of_read {position : Int} {answer : Except Error (List Entry)}
    (hread : read batch position s = (answer, s')) :
    s' = s.disturb.2.note (.read position s.disturb.2.log answer) ∧
      answer = outcome s.disturb.1 (Store.since s.disturb.2.log position (max batch 1)) := by
  unfold read at hread
  obtain ⟨rfl, rfl⟩ := Prod.mk.inj hread
  exact ⟨rfl, rfl⟩

/-- A claim is written down with the log that it found and the one that it left. -/
theorem of_claim {id : Int} {answer : Except Error Unit} (hclaim : claim id s = (answer, s')) :
    ∃ after, s' = { s.disturb.2 with log := after }.note (.claim id s.disturb.2.log answer after) ∧
      (answer = .ok () ∧ outcome s.disturb.1 (Store.fill s.disturb.2.log id) = .ok after ∨
        (∃ e, answer = .error e ∧ outcome s.disturb.1 (Store.fill s.disturb.2.log id) = .error e) ∧
          after = s.disturb.2.log) := by
  unfold claim at hclaim
  dsimp only at hclaim
  rcases hmade : outcome s.disturb.1 (Store.fill s.disturb.2.log id) with e | after <;>
    rw [hmade] at hclaim <;> cases hclaim
  · exact ⟨s.disturb.2.log, rfl, Or.inr ⟨⟨e, rfl, rfl⟩, rfl⟩⟩
  · exact ⟨after, rfl, Or.inl ⟨rfl, rfl⟩⟩

@[simp] theorem pages_disturb (s : Scene) : s.disturb.2.pages = s.pages := by
  unfold disturb
  split <;> rfl

@[simp] theorem attempts_disturb (s : Scene) : s.disturb.2.attempts = s.attempts := by
  rw [attempts, pages_disturb, attempts]

/-! ## Where attempts take a watcher -/

/-- The attempts of a watcher took it to a position one after the other, and showed it entries. What
they tell of the log is right: a read answers what is there, and a claim changes nothing or fills
its id. -/
structure Account (batch : Nat) (position : Int) (es : List Entry) (s : Scene) : Prop where
  path : s.attempts.IsChain fun later earlier => later.position = earlier.reached
  here : ∀ attempt ∈ s.attempts.head?, attempt.reached = position
  shown : es = shownBy s.attempts
  reads : ∀ position log rows, .read position log (.ok rows) ∈ s.attempts →
    Store.since log position (max batch 1) = .ok rows
  claims : ∀ id log answer after, .claim id log answer after ∈ s.attempts →
    answer = .ok () ∧ Store.fill log id = .ok after ∨ after = log

namespace Account

variable {position : Int} {es : List Entry} {fuel : Nat} {w w' : Watcher}

theorem start (log : Log) (batch : Nat) (position : Int) : Account batch position [] { log } where
  path := .nil
  here attempt hattempt := by cases hattempt
  shown := rfl
  reads _ _ _ hmem := by cases hmem
  claims _ _ _ _ hmem := by cases hmem

/-- Only the attempts count. -/
theorem of_attempts_eq (h : Account batch position es s) (hattempts : s'.attempts = s.attempts) :
    Account batch position es s' where
  path := by rw [hattempts]; exact h.path
  here := by rw [hattempts]; exact h.here
  shown := by rw [hattempts]; exact h.shown
  reads := by rw [hattempts]; exact h.reads
  claims := by rw [hattempts]; exact h.claims

/-- One more attempt. -/
theorem note (h : Account batch position es s) {attempt : Attempt}
    (hattempts : s'.attempts = attempt :: s.attempts) (hposition : attempt.position = position)
    (hread : ∀ position log rows, attempt = .read position log (.ok rows) →
      Store.since log position (max batch 1) = .ok rows)
    (hclaim : ∀ id log answer after, attempt = .claim id log answer after →
      answer = .ok () ∧ Store.fill log id = .ok after ∨ after = log) :
    Account batch attempt.reached (es ++ attempt.shown) s' where
  path := by
    rw [hattempts, List.isChain_cons]
    refine ⟨?_, h.path⟩
    intro earlier hearlier
    rw [hposition, h.here earlier hearlier]
  here := by
    rw [hattempts]
    rintro _ ⟨⟩
    rfl
  shown := by rw [hattempts, shownBy, h.shown]
  reads := by
    rw [hattempts]
    intro position log rows hmem
    rcases List.mem_cons.1 hmem with rfl | hmem
    · exact hread _ _ _ rfl
    · exact h.reads _ _ _ hmem
  claims := by
    rw [hattempts]
    intro id log answer after hmem
    rcases List.mem_cons.1 hmem with rfl | hmem
    · exact hclaim _ _ _ _ rfl
    · exact h.claims _ _ _ _ hmem

/-- A read. -/
theorem read (h : Account batch position es s) {answer : Except Error (List Entry)}
    (hread : Scene.read batch position s = (answer, s')) :
    ∃ log, Account batch (Attempt.reached (.read position log answer))
      (es ++ Attempt.shown (.read position log answer)) s' := by
  obtain ⟨rfl, hanswer⟩ := of_read hread
  refine ⟨s.disturb.2.log, h.note (by simp) rfl ?_ ?_⟩
  · rintro _ _ rows ⟨⟩
    exact of_outcome_eq_ok hanswer.symm
  · rintro _ _ _ _ ⟨⟩

/-- A claim of the next id. -/
theorem claim (h : Account batch position es s) {id : Int} (hid : id = position + 1)
    {answer : Except Error Unit} (hclaim : Scene.claim id s = (answer, s')) :
    Account batch position es s' := by
  obtain ⟨after, rfl, hafter⟩ := of_claim hclaim
  have hattempts :
      (Scene.note { s.disturb.2 with log := after }
        (.claim id s.disturb.2.log answer after)).attempts =
      .claim id s.disturb.2.log answer after :: s.attempts := by
    rw [attempts_note]
    exact congrArg _ s.attempts_disturb
  have hposition : id - 1 = position := by omega
  have hnoted := h.note hattempts hposition (fun _ _ _ hattempt => by cases hattempt) ?_
  · rw [← List.append_nil es, ← hposition]
    exact hnoted
  · rintro _ _ _ _ ⟨⟩
    exact hafter.imp (fun hmade => ⟨hmade.1, of_outcome_eq_ok hmade.2⟩) And.right

/-- **A fetch goes where its attempts take it**, and delivers what they show. -/
theorem fetch (h : Account batch w.position es s) {outcome : Except Error (List Entry)}
    (hfetch : Fetched (source batch) fuel w s outcome w' s') :
    Account batch w'.position (es ++ given outcome) s' := by
  -- a read takes the watcher to the position of its verdict, and shows what the verdict delivers
  have hjudged : ∀ {w w₁ : Watcher} {s s₁ : Scene} {rows : List Entry} {verdict : Verdict},
      Account batch w.position es s → (source batch).read w.position s = (.ok rows, s₁) →
      w.judge rows = (verdict, w₁) → Account batch w₁.position (es ++ verdict.batch) s₁ := by
    intro w w₁ s s₁ rows verdict h hread hjudge
    obtain ⟨log, hafter⟩ := h.read hread
    obtain ⟨hposition, hbatch, -⟩ := of_judge hjudge
    rw [hposition, hbatch]
    exact hafter
  induction hfetch with
  | spent =>
    rw [given, List.append_nil]
    exact h
  | unread hread =>
    obtain ⟨log, hafter⟩ := h.read hread
    exact hafter
  | delivered hread hjudge => exact hjudged h hread hjudge
  | again hread hjudge hrest ih =>
    have hafter := hjudged h hread hjudge
    rw [Verdict.batch, List.append_nil] at hafter
    exact ih hafter
  | claimed hread hjudge hclaim hsettled hrest ih =>
    have hafter := hjudged h hread hjudge
    rw [Verdict.batch, List.append_nil] at hafter
    exact ih (hafter.claim (of_judge hjudge).2.2.id_eq hclaim)
  | unclaimed hread hjudge hclaim =>
    have hafter := hjudged h hread hjudge
    rw [Verdict.batch, List.append_nil] at hafter
    rw [given, List.append_nil]
    exact hafter.claim (of_judge hjudge).2.2.id_eq hclaim

end Account

end Scene

/-! ## Trials -/

/-- What is done with a watcher, and what happens meanwhile. -/
inductive Pulling
  | poll (disturbances : List Disturbance)
  /-- a wait in at most so many rounds and one -/
  | next (rounds : Nat) (disturbances : List Disturbance) (rests : List Rest)

namespace Pulling

/-- What happens before the transactions. -/
def disturbances : Pulling → List Disturbance
  | poll disturbances => disturbances
  | next _ disturbances _ => disturbances

/-- The scene of a pull. -/
def stage (s : Scene) : Pulling → Scene
  | poll disturbances => { s with disturbances }
  | next _ disturbances rests => { s with disturbances, rests }

end Pulling

/-- What came of a pull. -/
inductive Upshot
  | polled (outcome : Except Error (List Entry))
  | pulled (pull : Pull)
  deriving DecidableEq

/-- The entries that an answer hands out. -/
def Upshot.entries : Upshot → List Entry
  | polled outcome => given outcome
  | pulled pull => pull.entries

/-- A watcher in a scene, and what came of all pulls. -/
structure Trial where
  scene : Scene
  watcher : Watcher
  upshots : List Upshot := []

namespace Trial

/-- A watcher that is started on a log. -/
def start (log : Log) (revision : Int) : Trial := { scene := { log }, watcher := .since revision }

/-- All that was handed out. -/
def delivered (t : Trial) : List Entry := t.upshots.flatMap Upshot.entries

/-- What a pull makes of a trial. -/
def pull (batch : Nat) (bound : Log → Nat) (t : Trial) (p : Pulling) : Trial :=
  match p with
  | .poll _ =>
    match Scene.bounded bound (p.stage t.scene) with
    | (fuel, scene) =>
      match Watcher.poll (Scene.source batch) fuel t.watcher scene with
      | ((outcome, watcher), scene) => { scene, watcher, upshots := t.upshots ++ [.polled outcome] }
  | .next rounds _ _ =>
    match Watcher.next (Scene.source batch) Scene.pause (Scene.bounded bound) (rounds + 1) t.watcher
      (p.stage t.scene) with
    | ((pull, watcher), scene) => { scene, watcher, upshots := t.upshots ++ [.pulled pull] }

/-- What pulls make of a trial. -/
def run (batch : Nat) (bound : Log → Nat) (t : Trial) (pulls : List Pulling) : Trial :=
  pulls.foldl (pull batch bound) t

variable {batch : Nat} {bound : Log → Nat} {t : Trial} {Ready : Scene → Prop} {P : Property Scene}

/-- **A pull keeps what its fetches keep.** -/
theorem keeps_pull (h : Keeps (Scene.source batch) Scene.pause (Scene.bounded bound) Ready P)
    {p : Pulling} (hstage : ∀ {ended suspect position es s}, P ended suspect position es s →
      P ended suspect position es (p.stage s))
    (hP : P.Of t.watcher t.delivered t.scene) :
    P.Of (t.pull batch bound p).watcher (t.pull batch bound p).delivered
        (t.pull batch bound p).scene := by
  have hstaged : P.Of t.watcher t.delivered (p.stage t.scene) := ⟨hP.1, hstage hP.2⟩
  cases p with
  | poll disturbances =>
    have hbegun := h.readies hstaged.2
    rw [pull]
    rcases hbounded : Scene.bounded bound (Pulling.stage t.scene (.poll disturbances)) with
      ⟨fuel, scene⟩
    rw [hbounded] at hbegun
    dsimp only
    rcases hpoll : Watcher.poll (Scene.source batch) fuel t.watcher scene with
      ⟨⟨outcome, watcher⟩, scene'⟩
    have hready : P.Of t.watcher t.delivered scene := ⟨hP.1, hbegun.1⟩
    have hafter := h.poll hready hbegun.2 (polled_of_poll hpoll)
    simpa [delivered, Upshot.entries] using hafter
  | next rounds disturbances rests =>
    rw [pull]
    rcases hnext : Watcher.next (Scene.source batch) Scene.pause (Scene.bounded bound)
      (rounds + 1) t.watcher
      (Pulling.stage t.scene (.next rounds disturbances rests)) with ⟨⟨pulled, watcher⟩, scene'⟩
    have hafter := h.next hstaged hnext
    simpa [delivered, Upshot.entries] using hafter

/-- **Pulls keep what their fetches keep.** -/
theorem keeps_run (h : Keeps (Scene.source batch) Scene.pause (Scene.bounded bound) Ready P)
    (pulls : List Pulling)
    (hstage : ∀ p ∈ pulls, ∀ {ended suspect position es s}, P ended suspect position es s →
      P ended suspect position es (p.stage s))
    (hP : P.Of t.watcher t.delivered t.scene) :
    P.Of (t.run batch bound pulls).watcher (t.run batch bound pulls).delivered
        (t.run batch bound pulls).scene := by
  induction pulls generalizing t with
  | nil => exact hP
  | cons p pulls ih =>
    exact ih (fun q hq => hstage q (List.mem_cons_of_mem p hq))
      (keeps_pull h (hstage p List.mem_cons_self) hP)

/-- At the start nothing was handed out and nothing is held back. -/
theorem of_start (log : Log) (revision : Int) (hP : P false none (max revision 0) [] { log }) :
    P.Of (start log revision).watcher (start log revision).delivered (start log revision).scene :=
  ⟨fun _ => rfl, hP⟩

end Trial

end RevisionLog
