import RevisionLog.Proofs.Journey

/-!
# The turns of a fetch

A fetch reads again after rows that were all placeholders, and after a claim, whatever came of it.
Where nobody else writes it comes to an end all the same: every read but the one after the claim
finds fewer rows above its position than the one before, and after the claim nothing is suspected
any more, so that there is no second one. The claim itself can add a row to those that are still
ahead.

* `Log.above` — how many rows lie above a position.
* `Watcher.absorb?` — the walk over rows with sums that fit; `absorb?_of_since` — what was read is
  walked over so.
* `Watcher.turns` — how many reads a fetch can need; `Scene.IsQuiet.fetch_eq` — more of them change
  nothing.
* `Scene.Turned`, `Scene.Turning` — what the page of a fetch says, and where a fetch stands that
  goes on.
* `Scene.IsQuiet.fetch_ends` — what is true of every fetch.
-/

namespace RevisionLog

open Store Watcher

/-! ## The rows that lie ahead -/

namespace Log

variable {log : Log} {position position' : Int} {batch : Nat} {es : List Entry}

/-- How many rows lie above a position. -/
def above (log : Log) (position : Int) : Nat := (log.rows.filter (position < ·.id)).length

theorem filter_above (log : Log) (hle : position ≤ position') :
    log.rows.filter (position' < ·.id) =
      (log.rows.filter (position < ·.id)).filter (position' < ·.id) := by
  rw [List.filter_filter]
  refine List.filter_congr fun r _ => ?_
  rw [← Bool.decide_and, decide_eq_decide]
  omega

theorem above_le (log : Log) (hle : position ≤ position') :
    log.above position' ≤ log.above position := by
  unfold above
  rw [log.filter_above hle]
  exact List.length_filter_le _ _

/-- A row that was passed lies ahead no more. -/
theorem above_lt {r : Row} (hr : r ∈ log.rows) (hlt : position < r.id) (hle : r.id ≤ position') :
    log.above position' < log.above position := by
  unfold above
  rw [log.filter_above (show position ≤ position' by omega),
    List.length_filter_lt_length_iff_exists]
  refine ⟨r, List.mem_filter.2 ⟨hr, decide_eq_true hlt⟩, ?_⟩
  simpa using hle

theorem length_filter_place (r : Row) (p : Row → Bool) (rows : List Row) :
    ((place r rows).filter p).length ≤ (rows.filter p).length + 1 := by
  induction rows with
  | nil => exact List.length_filter_le p [r]
  | cons s rows ih =>
    unfold place
    split
    · rw [List.filter_cons]
      split
      · exact Nat.le_refl _
      · exact Nat.le_succ _
    · rw [List.filter_cons, List.filter_cons]
      split
      · exact Nat.succ_le_succ ih
      · exact ih

/-- One more row is at most one more ahead. -/
theorem above_put_le {r : Row} {fresh : ∀ s ∈ log.rows, s.id ≠ r.id} :
    (log.put r fresh).above position ≤ log.above position + 1 :=
  length_filter_place r _ log.rows

/-- Rows that were read lie above the position, in order. -/
theorem pairwise_of_since (h : Store.since log position batch = .ok es) :
    es.Pairwise (·.revision < ·.revision) ∧
      ∀ e ∈ es, position < e.revision ∧ ∃ r ∈ log.rows, r.id = e.revision := by
  obtain ⟨-, front, back, hrows, hread, -⟩ := of_since_eq_ok h
  have hrevisions := revisions_of_mapM_entry hread
  have hordered := log.ordered.filter (position < ·.id)
  rw [hrows] at hordered
  refine ⟨?_, fun e he => ?_⟩
  · rw [← List.pairwise_map (f := Entry.revision) (R := (· < ·)), hrevisions, List.pairwise_map]
    exact (List.pairwise_append.1 hordered).1
  · have hid : e.revision ∈ front.map Row.id := by
      rw [← hrevisions]
      exact List.mem_map_of_mem he
    obtain ⟨r, hr, hrid⟩ := List.mem_map.1 hid
    have hmem : r ∈ log.rows.filter (position < ·.id) := by
      rw [hrows]
      exact List.mem_append_left back hr
    rw [List.mem_filter, decide_eq_true_iff, hrid] at hmem
    exact ⟨hmem.2, r, hmem.1, hrid⟩

end Log

/-! ## Sums on the way -/

namespace Watcher

/-- Walks over rows that follow a position without a gap, as `absorb` does. Every sum on the way has
to fit. -/
def absorb? (position : Int) : List Entry → Option (Int × List Entry × Option Int)
  | [] => some (position, [], none)
  | e :: rest => do
    let expected ← Revision.add? position 1
    if e.revision ≠ expected then return (position, [], some expected)
    else
      let (reached, batch, missing) ← absorb? e.revision rest
      return (reached, if e.isGap then batch else e :: batch, missing)

/-- Over rows in order above a position every sum fits, as each is at most the id of the
next row. -/
theorem absorb?_of_pairwise {position : Int} {rows : List Entry}
    (hleast : Revision.least ≤ position) (hsorted : rows.Pairwise (·.revision < ·.revision))
    (habove : ∀ e ∈ rows, position < e.revision ∧ e.revision ≤ Revision.greatest) :
    absorb? position rows = some (absorb position rows) := by
  induction rows generalizing position with
  | nil => rfl
  | cons e rows ih =>
    obtain ⟨hlt, hle⟩ := habove e List.mem_cons_self
    obtain ⟨hfirst, hrest⟩ := List.pairwise_cons.1 hsorted
    have hsum : Revision.add? position 1 = some (position + 1) :=
      Revision.add?_eq_some.2 ⟨⟨by omega, by omega⟩, rfl⟩
    have htail := ih (by omega) hrest fun f hf =>
      ⟨hfirst f hf, (habove f (List.mem_cons_of_mem e hf)).2⟩
    rw [absorb?, absorb, hsum]
    dsimp only [bind, Option.bind]
    split
    · rfl
    · rw [htail]
      rfl

/-- **Over rows that were read every sum fits**, up to the greatest revision. -/
theorem absorb?_of_since {log : Log} {position : Int} {batch : Nat} {rows : List Entry}
    (h : Store.since log position batch = .ok rows) (hrange : ∀ r ∈ log.rows, Revision.InRange r.id)
    (hposition : 0 ≤ position) : absorb? position rows = some (absorb position rows) := by
  obtain ⟨hsorted, habove⟩ := Log.pairwise_of_since h
  refine absorb?_of_pairwise (Int.le_trans (by decide) hposition) hsorted fun e he => ?_
  obtain ⟨hlt, r, hr, hid⟩ := habove e he
  exact ⟨hlt, hid ▸ (hrange r hr).2⟩

/-! ## Turns -/

/-- How many reads a fetch can need. A claim costs a read, and the row that it writes
another one. -/
def turns (w : Watcher) (log : Log) : Nat :=
  log.above w.position + if w.suspect = none then 1 else 3

theorem turns_pos (w : Watcher) (log : Log) : 0 < w.turns log := by
  unfold turns
  split <;> omega

theorem turns_le (w : Watcher) (log : Log) : w.turns log ≤ log.above w.position + 3 := by
  unfold turns
  split <;> omega

variable {log : Log} {batch : Nat} {w w' : Watcher} {rows : List Entry}

/-- **A turn over placeholders passes a row.** -/
theorem above_lt_of_again (hsince : Store.since log w.position batch = .ok rows)
    (hjudge : w.judge rows = (.again, w')) :
    log.above w'.position < log.above w.position ∧ w.position < w'.position ∧
        w'.suspect = w.suspect := by
  obtain ⟨-, -, hverdict⟩ := of_judge hjudge
  cases hverdict with
  | again hmissing hnothing hlt hsuspect =>
    obtain ⟨es, hes, htrail, -, -⟩ := exists_trail_of_judge hjudge
    obtain ⟨e, he, hrevision⟩ := htrail.exists_mem hlt (Int.le_refl _)
    obtain ⟨hposition, r, hr, hid⟩ := (Log.pairwise_of_since hsince).2 e (hes e he)
    exact ⟨Log.above_lt hr (by omega) (by omega), hlt, hsuspect⟩

/-- A turn that claims an id ends the suspicion, and the id is missing. -/
theorem of_claim_turn (hsince : Store.since log w.position batch = .ok rows) {id : Int}
    (hjudge : w.judge rows = (.claim id, w')) :
    log.Lacks id ∧ id = w'.position + 1 ∧ w.position ≤ w'.position ∧ w.suspect ≠ none ∧
        w'.suspect = none := by
  obtain ⟨es, -, htrail, -⟩ := exists_trail_of_judge hjudge
  obtain ⟨-, -, hverdict⟩ := of_judge hjudge
  rcases habsorb : absorb w.position rows with ⟨reached, taken, missing⟩
  rw [habsorb] at hverdict
  cases hverdict with
  | claim hmissing hnothing hsuspect hnone =>
    obtain rfl : missing = some (w'.position + 1) := hmissing
    refine ⟨(Log.lacks_of_absorb hsince habsorb).2, rfl, htrail.le, ?_, hnone⟩
    rw [hsuspect]
    exact Option.some_ne_none _

end Watcher

namespace Scene

variable {s s₁ s₂ s' : Scene} {batch fuel : Nat} {w w₁ w' : Watcher} {rows : List Entry} {id : Int}
  {answer : Except Error Unit}

/-- Where others leave the log alone, a claim writes a placeholder or nothing. -/
theorem IsQuiet.log_of_claim (h : s.IsQuiet) (hclaim : (source batch).claim id s = (answer, s')) :
    s'.log = s.log ∨ ∃ fresh, s'.log = s.log.put (gapRow id) fresh := by
  rcases (h.claim hclaim).2 with ⟨-, hclaimed⟩ | ⟨-, hsame⟩
  · rcases hfill : Store.fill s.log id with e | log
    · rw [hclaimed, Log.claimed, hfill]
      exact Or.inl rfl
    · obtain ⟨-, fresh, hput⟩ := Log.fill_eq_ok (ask_eq_ok.1 hfill)
      rw [hclaimed, Log.claimed, hfill]
      exact Or.inr ⟨fresh, hput⟩
  · exact Or.inl hsame

/-- **Reads beyond those that a fetch can need change nothing.** -/
theorem IsQuiet.fetch_eq (h : s.IsQuiet) {fuel' : Nat} (hfuel : w.turns s.log ≤ fuel)
    (hfuel' : w.turns s.log ≤ fuel') :
    fetch (source batch) fuel w s = fetch (source batch) fuel' w s := by
  induction fuel generalizing fuel' w s with
  | zero => exact absurd hfuel (Nat.not_le_of_lt (w.turns_pos s.log))
  | succ fuel ih =>
    obtain ⟨fuel', rfl⟩ := Nat.exists_eq_add_of_lt (Nat.lt_of_lt_of_le (w.turns_pos s.log) hfuel')
    rw [Nat.zero_add] at hfuel' ⊢
    rw [fetch_succ, fetch_succ]
    rcases hread : (source batch).read w.position s with ⟨e | rows, s₁⟩
    · rfl
    · obtain ⟨hlog, hquiet, hsince⟩ := h.read hread
      have hsince := hsince rows rfl
      dsimp only
      rcases hjudge : w.judge rows with ⟨taken | _ | id, w₁⟩ <;> dsimp only
      · -- a row less lies ahead
        obtain ⟨hless, -, hsuspect⟩ := above_lt_of_again hsince hjudge
        have hturns : w₁.turns s₁.log < w.turns s.log := by
          unfold turns
          rw [hsuspect, hlog]
          omega
        exact ih hquiet (by omega) (by omega)
      · rcases hclaim : (source batch).claim id s₁ with ⟨answer, s₂⟩
        dsimp only
        rcases settled answer with _ | e <;> dsimp only
        · -- a row more may lie ahead, and there is no suspicion that could cost another claim
          obtain ⟨-, -, hle, hsome, hnone⟩ := of_claim_turn hsince hjudge
          have hahead := s.log.above_le hle
          have hmore : s₂.log.above w₁.position ≤ s.log.above w₁.position + 1 := by
            rcases hquiet.log_of_claim hclaim with hsame | ⟨fresh, hput⟩
            · rw [hsame, hlog]
              exact Nat.le_succ _
            · rw [hput, ← hlog]
              exact Log.above_put_le
          have hturns : w₁.turns s₂.log < w.turns s.log := by
            unfold turns
            rw [if_pos hnone, if_neg hsome]
            omega
          exact ih (hquiet.claim hclaim).1 (by omega) (by omega)

end Scene

/-! ## The page of a fetch -/

namespace Attempt

def isClaim : Attempt → Bool
  | read _ _ _ => false
  | claim _ _ _ _ => true

def isRead (attempt : Attempt) : Bool := !attempt.isClaim

/-- How many rows lay above the position. -/
def above (attempt : Attempt) : Nat := attempt.before.above attempt.position

/-- One attempt of a fetch after another one: nothing goes back, and a read that follows no claim
finds fewer rows above its position. -/
def Follows (later earlier : Attempt) : Prop :=
  earlier.position ≤ later.position ∧
    (later.isClaim = true ∨ earlier.isClaim = true ∨ later.above < earlier.above)

end Attempt

namespace Scene

variable {s s₁ s₂ s' : Scene} {batch fuel : Nat} {w w₁ w' : Watcher} {rows : List Entry} {id : Int}

/-- What the page of a fetch says that began at a position of a log, and came to a position
so far. -/
structure Turned (log : Log) (start : Int) (older : List (List Attempt)) (page : List Attempt)
    (position : Int) (s : Scene) : Prop where
  pages : s.pages = page :: older
  le : start ≤ position
  bounds : ∀ attempt ∈ page, start ≤ attempt.position ∧ attempt.position ≤ position
  follows : page.IsChain Attempt.Follows
  sums : ∀ position log rows, .read position log (.ok rows) ∈ page →
    absorb? position rows = some (absorb position rows)
  claims : page.countP Attempt.isClaim ≤ 1
  fills : s.log = log ∨ ∃ id, log.Lacks id ∧ Revision.InRange id ∧
    ∃ fresh, s.log = log.put (gapRow id) fresh

/-- Where a fetch stands that goes on. After a claim it suspects nothing. -/
structure Turning (log : Log) (start : Int) (older : List (List Attempt)) (page : List Attempt)
    (w : Watcher) (s : Scene) : Prop extends Turned log start older page w.position s where
  quiet : s.IsQuiet
  nonneg : 0 ≤ start
  range : ∀ r ∈ s.log.rows, Revision.InRange r.id
  next : ∀ attempt ∈ page.head?, attempt.isClaim = true ∨ s.log.above w.position < attempt.above
  unclaimed : w.suspect = none ∨ page.countP Attempt.isClaim = 0 ∧ s.log = log

variable {log : Log} {start : Int} {older : List (List Attempt)} {page : List Attempt}

/-- A fetch begins on a page of its own. -/
theorem IsQuiet.turning (h : s.IsQuiet) (hrange : ∀ r ∈ s.log.rows, Revision.InRange r.id)
    (hposition : 0 ≤ w.position) : Turning s.log w.position s.pages [] w s.turnPage where
  pages := rfl
  le := Int.le_refl _
  bounds _ hattempt := by cases hattempt
  follows := .nil
  sums _ _ _ hattempt := by cases hattempt
  claims := Nat.zero_le 1
  fills := Or.inl rfl
  quiet := h
  nonneg := hposition
  range := hrange
  next _ hattempt := by cases hattempt
  unclaimed := Or.inr ⟨rfl, rfl⟩

namespace Turning

/-- A read is written on the page, wherever it takes the watcher. -/
theorem read (h : Turning log start older page w s) {answer : Except Error (List Entry)}
    (hread : (source batch).read w.position s = (answer, s₁)) {position : Int}
    (hle : w.position ≤ position) :
    Turned log start older (.read w.position s.log answer :: page) position s₁ := by
  obtain ⟨hlog, -, hsince⟩ := h.quiet.read hread
  refine ⟨?pages, Int.le_trans h.le hle, ?bounds, ?follows, ?sums, ?claims, ?fills⟩
  case pages =>
    obtain ⟨rfl, -⟩ := of_read hread
    rw [h.quiet.log_disturb]
    exact pages_note (s.pages_disturb.trans h.pages) _
  case bounds =>
    intro attempt hattempt
    rcases List.mem_cons.1 hattempt with rfl | hattempt
    · exact ⟨h.le, hle⟩
    · exact ⟨(h.bounds attempt hattempt).1, Int.le_trans (h.bounds attempt hattempt).2 hle⟩
  case follows =>
    rw [List.isChain_cons]
    refine ⟨fun earlier hearlier => ?_, h.follows⟩
    exact ⟨(h.bounds earlier (List.mem_of_mem_head? hearlier)).2, Or.inr (h.next earlier hearlier)⟩
  case sums =>
    intro from' log' rows hmem
    rcases List.mem_cons.1 hmem with hsame | hmem
    · cases hsame
      exact absorb?_of_since (hsince rows rfl) h.range (Int.le_trans h.nonneg h.le)
    · exact h.sums _ _ _ hmem
  case claims => exact h.claims
  case fills =>
    rw [hlog]
    exact h.fills

/-- A turn over placeholders. -/
theorem again (h : Turning log start older page w s)
    (hread : (source batch).read w.position s = (.ok rows, s₁))
    (hjudge : w.judge rows = (.again, w₁)) :
    Turning log start older (.read w.position s.log (.ok rows) :: page) w₁ s₁ := by
  obtain ⟨hlog, hquiet, hsince⟩ := h.quiet.read hread
  obtain ⟨hless, hlt, hsuspect⟩ := above_lt_of_again (hsince rows rfl) hjudge
  refine ⟨h.read hread (Int.le_of_lt hlt), hquiet, h.nonneg, ?range, ?next, ?unclaimed⟩
  case range =>
    rw [hlog]
    exact h.range
  case next =>
    rintro _ ⟨⟩
    rw [hlog]
    exact Or.inr hless
  case unclaimed =>
    rw [hlog, hsuspect]
    exact h.unclaimed

/-- A turn with a claim. There was none before, and whatever comes of it there is none any more. -/
theorem claim (h : Turning log start older page w s)
    (hread : (source batch).read w.position s = (.ok rows, s₁))
    (hjudge : w.judge rows = (.claim id, w₁)) {answer : Except Error Unit}
    (hclaim : (source batch).claim id s₁ = (answer, s₂)) :
    ∃ after, Turning log start older
      (.claim id s.log answer after :: .read w.position s.log (.ok rows) :: page) w₁ s₂ := by
  obtain ⟨hlog, hquiet, hsince⟩ := h.quiet.read hread
  obtain ⟨hlacks, hid, hle, hsome, hnone⟩ := of_claim_turn (hsince rows rfl) hjudge
  obtain ⟨hzero, hsame⟩ := h.unclaimed.resolve_left hsome
  have hturned := h.read hread hle
  have hmade := hquiet.log_of_claim hclaim
  rw [hlog] at hmade
  obtain ⟨after, hpages⟩ : ∃ after, s₂.pages =
      (.claim id s.log answer after :: .read w.position s.log (.ok rows) :: page) :: older := by
    obtain ⟨after, rfl, -⟩ := of_claim hclaim
    rw [hquiet.log_disturb, hlog]
    have hpages : { s₁.disturb.2 with log := after }.pages = _ :=
      s₁.pages_disturb.trans hturned.pages
    exact ⟨after, pages_note hpages _⟩
  have hinrange : Revision.InRange id := by
    obtain ⟨r, hr, hlt⟩ := hlacks.2
    have hgreatest := (h.range r hr).2
    have hnonneg := h.nonneg
    have hstart := h.le
    exact ⟨Int.le_trans (by decide) (show (0 : Int) ≤ id by omega), by omega⟩
  refine ⟨after, ⟨hpages, hturned.le, ?bounds, ?follows, ?sums, ?claims, ?fills⟩,
    (hquiet.claim hclaim).1, h.nonneg, ?range, ?next, Or.inl hnone⟩
  case bounds =>
    intro attempt hattempt
    rcases List.mem_cons.1 hattempt with rfl | hattempt
    · have hstart := hturned.le
      exact ⟨show start ≤ id - 1 by omega, show id - 1 ≤ w₁.position by omega⟩
    · exact hturned.bounds attempt hattempt
  case follows =>
    exact List.isChain_cons_cons.2 ⟨⟨show w.position ≤ id - 1 by omega, Or.inl rfl⟩,
      hturned.follows⟩
  case sums =>
    intro from' log' rows' hmem
    rcases List.mem_cons.1 hmem with hclaimed | hmem
    · cases hclaimed
    · exact hturned.sums _ _ _ hmem
  case claims =>
    rw [List.countP_cons, List.countP_cons, hzero]
    exact Nat.le_refl 1
  case fills =>
    rw [← hsame]
    exact hmade.imp_right fun hput => ⟨id, hlacks, hinrange, hput⟩
  case range =>
    rcases hmade with hkept | ⟨fresh, hput⟩
    · rw [hkept]
      exact h.range
    · rw [hput]
      exact Log.forall_rows_put hinrange h.range
  case next =>
    rintro _ ⟨⟩
    exact Or.inl rfl

/-- **A fetch that stands well ends well**, and a turn costs a read. -/
theorem fetch (h : Turning log start older page w s) {outcome : Except Error (List Entry)}
    (hfetch : Fetched (source batch) fuel w s outcome w' s') :
    ∃ page', Turned log start older page' w'.position s' ∧
      page'.countP Attempt.isRead ≤ page.countP Attempt.isRead + fuel := by
  induction hfetch generalizing page with
  | spent => exact ⟨page, h.toTurned, Nat.le_refl _⟩
  | unread hread =>
    refine ⟨_, h.read hread (Int.le_refl _), ?_⟩
    rw [List.countP_cons_of_pos rfl]
    omega
  | delivered hread hjudge =>
    obtain ⟨es, -, htrail, -⟩ := exists_trail_of_judge hjudge
    refine ⟨_, h.read hread htrail.le, ?_⟩
    rw [List.countP_cons_of_pos rfl]
    omega
  | again hread hjudge hrest ih =>
    obtain ⟨page', hturned, hreads⟩ := ih (h.again hread hjudge)
    rw [List.countP_cons_of_pos rfl] at hreads
    exact ⟨page', hturned, by omega⟩
  | claimed hread hjudge hclaim hsettled hrest ih =>
    obtain ⟨after, hturning⟩ := h.claim hread hjudge hclaim
    obtain ⟨page', hturned, hreads⟩ := ih hturning
    rw [List.countP_cons_of_neg Bool.false_ne_true, List.countP_cons_of_pos rfl] at hreads
    exact ⟨page', hturned, by omega⟩
  | unclaimed hread hjudge hclaim hsettled =>
    obtain ⟨after, hturning⟩ := h.claim hread hjudge hclaim
    refine ⟨_, hturning.toTurned, ?_⟩
    rw [List.countP_cons_of_neg Bool.false_ne_true, List.countP_cons_of_pos rfl]
    omega

end Turning

/-- **A fetch ends and fills at most once**, where nobody else writes, whatever is in the table, and
whatever its transactions come to. There is one outcome for all fuel that covers the rows ahead, and
there are no more reads than that; no read goes back, and each one finds fewer rows above its
position or follows the only claim; and every sum fits. -/
theorem IsQuiet.fetch_ends (h : s.IsQuiet) (hrange : ∀ r ∈ s.log.rows, Revision.InRange r.id)
    (hposition : 0 ≤ w.position) (batch : Nat) :
    ∃ outcome w' s' page,
      (∀ fuel, s.log.above w.position + 3 ≤ fuel →
        fetch (source batch) fuel w s.turnPage = ((outcome, w'), s')) ∧
      page.countP Attempt.isRead ≤ s.log.above w.position + 3 ∧
      Turned s.log w.position s.pages page w'.position s' := by
  rcases hfetch : fetch (source batch) (s.log.above w.position + 3) w s.turnPage with
    ⟨⟨outcome, w'⟩, s'⟩
  obtain ⟨page, hturned, hreads⟩ := (h.turning hrange hposition).fetch (fetched_of_fetch hfetch)
  rw [List.countP_nil, Nat.zero_add] at hreads
  refine ⟨outcome, w', s', page, fun fuel hfuel => ?_, hreads, hturned⟩
  have hcovers : w.turns s.turnPage.log ≤ s.log.above w.position + 3 := w.turns_le s.log
  have hquiet : s.turnPage.IsQuiet := h
  rw [← hfetch]
  exact hquiet.fetch_eq (Nat.le_trans hcovers hfuel) hcovers

/-- The last three ids there can be, one of them missing. -/
def brimful : Scene where
  log := {
    rows := [gapRow (Revision.greatest - 2),
      (Draft.ofUser "a" true false 0 0 0 [] []).toRow Revision.greatest]
    ordered := by decide }

/-- A read passes the placeholder, the next id is claimed as it was missing before, and two more
reads take the watcher to the greatest revision. -/
theorem fetch_ends_brimful :
    let w : Watcher :=
      { cursor := 0, position := Revision.greatest - 3, suspect := some (Revision.greatest - 1) }
    (∃ outcome w' s' page,
      (∀ fuel, brimful.log.above w.position + 3 ≤ fuel →
        fetch (source 1) fuel w brimful.turnPage = ((outcome, w'), s')) ∧
      page.countP Attempt.isRead ≤ brimful.log.above w.position + 3 ∧
      Turned brimful.log w.position brimful.pages page w'.position s') ∧
    (fetch (source 1) 5 w brimful.turnPage).1.1.toOption.map (·.map Entry.revision) =
      some [Revision.greatest] ∧
    (fetch (source 1) 5 w brimful.turnPage).2.log.ids =
      [Revision.greatest - 2, Revision.greatest - 1, Revision.greatest] ∧
    (fetch (source 1) 5 w brimful.turnPage).2.attempts.map Attempt.position =
      [Revision.greatest - 1, Revision.greatest - 2, Revision.greatest - 2,
        Revision.greatest - 2, Revision.greatest - 3] := by
  refine ⟨IsQuiet.fetch_ends ?quiet ?range (by decide) 1, by decide +kernel, by decide +kernel,
    by decide +kernel⟩
  case quiet =>
    intro d hd
    cases hd
  case range => decide

end Scene

end RevisionLog
