import Mathlib.Data.Rat.Floor
import RevisionLog.Proofs.Overreaching

/-!
# The steps of a compactor

A compactor goes from the watermark to its revision in steps of one size, of which the last may be
shorter. It finds the end of each step by a sum that it takes before it looks whether the step goes
too far, so a sum may leave the range of revisions though the step would end inside it. Only the
last sum ever does, as all others lie below the revision.

* `Compaction.steps`, `Compaction.stops` — how many steps there are, and where they end.
* `Compaction.visit` — compactions to given revisions, with no arithmetic;
  `Compaction.advance_eq_visit` — the loop of a compactor is a visit of its stops, less the last one
  where the sum of that breaks down.
* `Compaction.noted` — a log that is reached with a record of every compaction asked for.
* `Compaction.compacts_step_by_step` — what a compactor asks for, and exactly where its arithmetic
  breaks down.
* `Compaction.exists_breakdown` — a compactor breaks down though its revision is there.
-/

namespace RevisionLog.Compaction

variable {settings : CompactionSettings} {watermark revision : Int}

/-! ## How many steps there are, and where they end -/

/-- How many steps it takes from a watermark to a revision. -/
def steps (settings : CompactionSettings) (watermark revision : Int) : Nat :=
  ((revision - watermark + (step settings - 1)) / step settings).toNat

/-- Where the steps from a watermark to a revision end. -/
def stops (settings : CompactionSettings) (watermark revision : Int) : List Int :=
  (List.range (steps settings watermark revision)).map fun i : Nat =>
    min (watermark + (i + 1) * step settings) revision

/-- The end of a whole step, also where that is beyond the revision. -/
def wholeWay (settings : CompactionSettings) (watermark revision : Int) : Int :=
  watermark + steps settings watermark revision * step settings

theorem steps_of_le (h : revision ≤ watermark) : steps settings watermark revision = 0 := by
  have hpos := step_pos settings
  have hnone : (revision - watermark + (step settings - 1)) / step settings < 1 :=
    (Int.ediv_lt_iff_lt_mul hpos).2 (by omega)
  rw [steps]
  omega

/-- The number of steps is what it takes to cover the way, and no more. -/
theorem steps_bounds (settings : CompactionSettings) (h : watermark < revision) :
    revision ≤ wholeWay settings watermark revision ∧
    wholeWay settings watermark revision < revision + step settings := by
  have hpos := step_pos settings
  have hpart := Int.mul_ediv_add_emod (revision - watermark + (step settings - 1)) (step settings)
  have hmod := Int.emod_nonneg (revision - watermark + (step settings - 1)) (Int.ne_of_gt hpos)
  have hlt := Int.emod_lt_of_pos (revision - watermark + (step settings - 1)) hpos
  have hnonneg : 0 ≤ (revision - watermark + (step settings - 1)) / step settings :=
    Int.ediv_nonneg (by omega) (Int.le_of_lt hpos)
  rw [wholeWay, steps, Int.toNat_of_nonneg hnonneg, Int.mul_comm]
  omega

/-- The number of steps is the quotient, rounded up. -/
theorem steps_eq_ceil (h : watermark < revision) :
    (steps settings watermark revision : Int) =
      ⌈((revision - watermark : Int) : ℚ) / ((max settings.batchSize 1 : Int) : ℚ)⌉ := by
  have hpos : (0 : ℚ) < ((step settings : Int) : ℚ) := by exact_mod_cast step_pos settings
  obtain ⟨hcover, hmore⟩ := steps_bounds settings h
  rw [wholeWay] at hcover hmore
  refine (Int.ceil_eq_iff.2 ⟨?_, ?_⟩).symm
  · rw [← step, lt_div_iff₀ hpos]
    have hlt :
        (steps settings watermark revision - 1 : Int) * step settings < revision - watermark := by
      rw [Int.sub_mul, Int.one_mul]
      omega
    exact_mod_cast hlt
  · rw [← step, div_le_iff₀ hpos]
    have hle :
      revision - watermark ≤ (steps settings watermark revision : Int) * step settings := by omega
    exact_mod_cast hle

/-- The first step, and those behind it. -/
theorem steps_of_lt (h : watermark < revision) :
    steps settings watermark revision =
      steps settings (min (watermark + step settings) revision) revision + 1 := by
  have hpos := step_pos settings
  rcases Int.lt_or_le (watermark + step settings) revision with hmore | hlast
  · have hrest : (revision - watermark + (step settings - 1)) / step settings =
        (revision - (watermark + step settings) + (step settings - 1)) / step settings + 1 := by
      rw [← Int.add_mul_ediv_right _ _ (Int.ne_of_gt hpos)]
      congr 1
      omega
    have hnonneg :
        0 ≤ (revision - (watermark + step settings) + (step settings - 1)) / step settings :=
      Int.ediv_nonneg (by omega) (Int.le_of_lt hpos)
    rw [Int.min_eq_left (Int.le_of_lt hmore), steps, steps, hrest]
    omega
  · have hone : (revision - watermark + (step settings - 1)) / step settings = 1 := by
      have hleast : 1 ≤ (revision - watermark + (step settings - 1)) / step settings :=
        (Int.le_ediv_iff_mul_le hpos).2 (by omega)
      have hgreatest : (revision - watermark + (step settings - 1)) / step settings < 2 :=
        (Int.ediv_lt_iff_lt_mul hpos).2 (by omega)
      omega
    rw [Int.min_eq_right hlast, steps_of_le (Int.le_refl _), steps, hone]
    rfl

theorem stops_of_le (h : revision ≤ watermark) : stops settings watermark revision = [] := by
  rw [stops, steps_of_le h]
  rfl

theorem stops_of_lt (h : watermark < revision) :
    stops settings watermark revision =
      min (watermark + step settings) revision ::
        stops settings (min (watermark + step settings) revision) revision := by
  rw [stops, steps_of_lt h, List.range_succ_eq_map, List.map_cons, List.map_map]
  congr 1
  · simp
  · rcases Int.lt_or_le (watermark + step settings) revision with hmore | hlast
    · rw [Int.min_eq_left (Int.le_of_lt hmore), stops]
      refine List.map_congr_left fun i _ => ?_
      have hsum : watermark + ((i.succ : Int) + 1) * step settings =
          watermark + step settings + ((i : Int) + 1) * step settings := by
        rw [Int.natCast_succ, Int.add_mul _ 1, Int.one_mul]
        omega
      exact congrArg (min · revision) hsum
    · rw [Int.min_eq_right hlast, steps_of_le (Int.le_refl _), stops_of_le (Int.le_refl _)]
      rfl

theorem length_stops (settings : CompactionSettings) (watermark revision : Int) :
    (stops settings watermark revision).length = steps settings watermark revision := by
  rw [stops, List.length_map, List.length_range]

/-- The whole steps behind the first one end where all of them end, unless the first one is
the last. -/
theorem wholeWay_of_lt (h : watermark + step settings < revision) :
    wholeWay settings watermark revision =
      wholeWay settings (watermark + step settings) revision := by
  have hpos := step_pos settings
  rw [wholeWay, steps_of_lt (by omega), Int.min_eq_left (Int.le_of_lt h), wholeWay,
    Int.natCast_succ, Int.add_mul, Int.one_mul]
  omega

theorem wholeWay_of_le (h : watermark < revision) (hlast : revision ≤ watermark + step settings) :
    wholeWay settings watermark revision = watermark + step settings := by
  rw [wholeWay, steps_of_lt h, Int.min_eq_right hlast, steps_of_le (Int.le_refl _)]
  omega

/-- **The watermark strictly increases** from stop to stop, and no stop is beyond the revision. -/
theorem pairwise_stops (settings : CompactionSettings) (watermark revision : Int) :
    (watermark :: stops settings watermark revision).Pairwise (· < ·) ∧
      ∀ r ∈ stops settings watermark revision, r ≤ revision := by
  induction hleft : (revision - watermark).toNat using Nat.strong_induction_on
      generalizing watermark with
  | _ left ih =>
    rcases Int.lt_or_le watermark revision with hlt | hle
    · have hpos := step_pos settings
      obtain ⟨hrest, hbelow⟩ := ih _ (by omega) (min (watermark + step settings) revision) rfl
      rw [stops_of_lt hlt]
      refine ⟨List.pairwise_cons.2 ⟨?_, hrest⟩,
        List.forall_mem_cons.2 ⟨Int.min_le_right _ _, hbelow⟩⟩
      refine List.forall_mem_cons.2 ⟨by omega, fun r hr => ?_⟩
      have hlater := (List.pairwise_cons.1 hrest).1 r hr
      omega
    · rw [stops_of_le hle]
      exact ⟨List.pairwise_singleton _ _, fun r hr => by cases hr⟩

/-- The last stop is the revision. -/
theorem getLast?_stops (h : watermark < revision) :
    (stops settings watermark revision).getLast? = some revision := by
  obtain ⟨k, hk⟩ : ∃ k, steps settings watermark revision = k + 1 := ⟨_, steps_of_lt h⟩
  have hcover := (steps_bounds settings h).1
  rw [wholeWay, hk, Int.natCast_succ] at hcover
  rw [stops, hk, List.range_succ, List.map_append, List.map_singleton, List.getLast?_concat,
    Int.min_eq_right hcover]

/-- **Only the last sum can leave the range.** The others are below the revision. -/
theorem inRange_sum_iff (settings : CompactionSettings) (hwatermark : 0 ≤ watermark)
    (hrevision : revision ≤ Revision.greatest) {i : Nat}
    (hi : i < steps settings watermark revision) :
    Revision.InRange (watermark + i * step settings + step settings) ↔
      i + 1 < steps settings watermark revision ∨
      wholeWay settings watermark revision ≤ Revision.greatest := by
  have hpos := step_pos settings
  have hlt : watermark < revision := by
    by_contra hle
    rw [steps_of_le (Int.not_lt.1 hle)] at hi
    exact Nat.not_lt_zero i hi
  have hend := (steps_bounds settings hlt).2
  have hway := Int.mul_nonneg (Int.natCast_nonneg i) (Int.le_of_lt hpos)
  have hlow : Revision.least ≤ watermark + i * step settings + step settings := by
    unfold Revision.least
    omega
  rcases Nat.lt_or_ge (i + 1) (steps settings watermark revision) with hmore | hlast
  · have hle :
        ((i + 2 : Nat) : Int) * step settings ≤ steps settings watermark revision * step settings :=
      Int.mul_le_mul_of_nonneg_right (Int.ofNat_le.2 hmore) (Int.le_of_lt hpos)
    have hsplit : ((i + 2 : Nat) : Int) * step settings =
        i * step settings + step settings + step settings := by
      rw [Int.natCast_add, Int.add_mul]
      omega
    rw [wholeWay] at hend
    exact iff_of_true ⟨hlow, by omega⟩ (Or.inl hmore)
  · have hsum : watermark + i * step settings + step settings =
        wholeWay settings watermark revision := by
      rw [wholeWay, show steps settings watermark revision = i + 1 by omega, Int.natCast_succ,
        Int.add_mul, Int.one_mul]
      omega
    rw [← hsum]
    exact ⟨fun h => Or.inr h.2, fun h => ⟨hlow, h.resolve_left (Nat.not_lt.2 hlast)⟩⟩

/-! ## The loop of a compactor -/

section Loop

variable {m : Type → Type} [Monad m]

/-- Compactions to these revisions, one after the other, until one fails. `ending` is what they come
to where none does. -/
def visit (target : Target m) (ending : Nat → Outcome) : List Int → (removed : Nat) → m Outcome
  | [], removed => pure (ending removed)
  | revision :: rest, removed => do
    match ← target.compact revision with
    | .error e => pure (.failed e)
    | .ok n => visit target ending rest (removed + n)

/-- **The loop of a compactor is a visit of its stops.** Where the sum of the last one leaves the
range, the visit ends before it, and the loop breaks down. -/
theorem advance_eq_visit (target : Target m) (hwatermark : 0 ≤ watermark)
    (hfits : watermark ≤ Revision.greatest) (hrevision : revision ≤ Revision.greatest)
    (removed : Nat) :
    advance target settings revision watermark removed =
      if wholeWay settings watermark revision ≤ Revision.greatest then
        visit target .removed (stops settings watermark revision) removed
      else visit target (fun _ => .overflow) (stops settings watermark revision).dropLast
          removed := by
  have hpos := step_pos settings
  induction hleft : (revision - watermark).toNat using Nat.strong_induction_on
      generalizing watermark removed with
  | _ left ih =>
    rcases Int.lt_or_le watermark revision with hlt | hle
    · have hone := inRange_sum_iff settings hwatermark hrevision
        (show 0 < steps settings watermark revision by rw [steps_of_lt hlt]; exact Nat.succ_pos _)
      rw [Int.natCast_zero, Int.zero_mul, Int.add_zero, Nat.zero_add] at hone
      rw [stops_of_lt hlt]
      rcases Int.lt_or_le (watermark + step settings) revision with hmore | hlast
      · -- more steps follow, so the sum of this one stays in the range
        have hrest :
            ∀ removed, advance target settings revision (watermark + step settings) removed = _ :=
          fun removed => ih _ (by omega) (by omega) (by omega) removed rfl
        have hnext : stops settings (watermark + step settings) revision ≠ [] := by
          rw [stops_of_lt hmore]
          exact List.cons_ne_nil _ _
        rw [advance_of_lt target hlt ⟨by unfold Revision.least; omega, by omega⟩,
          Int.min_eq_left (Int.le_of_lt hmore), wholeWay_of_lt hmore,
          List.dropLast_cons_of_ne_nil hnext]
        simp only [hrest]
        split <;> rfl
      · rw [Int.min_eq_right hlast, stops_of_le (Int.le_refl _), wholeWay_of_le hlt hlast]
        split
        · next hsum =>
          rw [advance_of_lt target hlt ⟨by unfold Revision.least; omega, hsum⟩,
            Int.min_eq_right hlast]
          have hend : ∀ removed, advance target settings revision revision removed =
              pure (.removed removed) := by
            intro removed
            rw [advance, if_neg (Int.lt_irrefl _)]
          simp only [hend]
          rfl
        · next hsum => exact advance_of_overflow target hlt (fun hrange => hsum hrange.2) removed
    · rw [advance, if_neg (Int.not_lt.2 hle), stops_of_le hle, wholeWay, steps_of_le hle,
        Int.natCast_zero, Int.zero_mul, Int.add_zero, if_pos hfits]
      rfl

end Loop

/-! ## What a compactor asks for -/

/-- Compactions that were asked for, and what came of each. -/
abbrev Calls := List (Int × Except Error Nat)

/-- How many rows are gone after compactions. -/
def Calls.removed (calls : Calls) : Nat := (calls.map fun call => call.2.toOption.getD 0).sum

section Noted

variable {σ : Type}

/-- A log that is reached with a record of every compaction asked for, the last one last. -/
def noted (target : Target (StateM σ)) : Target (StateM (Calls × σ)) where
  currentRevision := fun (calls, s) =>
    let (answer, s) := target.currentRevision s
    (answer, calls, s)
  watermark := fun (calls, s) =>
    let (answer, s) := target.watermark s
    (answer, calls, s)
  compact revision := fun (calls, s) =>
    let (answer, s) := target.compact revision s
    (answer, calls ++ [(revision, answer)], s)

/-- Compactions asked for out of these in their order: all of them were and went well, or the last
one failed. -/
inductive Calls.Cover (ending : Nat → Outcome) (revisions : List Int) (removed : Nat) :
    Calls → Outcome → Prop
  | all {calls : Calls} :
    calls.map Prod.fst = revisions → (∀ call ∈ calls, call.2.isOk = true) →
      Cover ending revisions removed calls (ending (removed + calls.removed))
  | failed {calls : Calls} {revision : Int} {e : Error} :
    calls.map Prod.fst ++ [revision] <+: revisions → (∀ call ∈ calls, call.2.isOk = true) →
      Cover ending revisions removed (calls ++ [(revision, .error e)]) (.failed e)

/-- What was asked for is the first part of what was to be asked for. If all of it went well it is
all of it, and else its last call is the one that failed. -/
theorem Calls.Cover.spec {ending : Nat → Outcome} {revisions : List Int} {calls : Calls}
    {outcome : Outcome} (h : Cover ending revisions 0 calls outcome) :
    calls.map Prod.fst <+: revisions ∧
      ((∀ call ∈ calls, call.2.isOk = true) →
        calls.map Prod.fst = revisions ∧ outcome = ending calls.removed) ∧
      ∀ call ∈ calls, ∀ e, call.2 = .error e →
        calls.getLast? = some call ∧ outcome = .failed e := by
  cases h with
  | all hcalls hok =>
    refine ⟨hcalls ▸ List.prefix_refl _, fun _ => ⟨hcalls, by rw [Nat.zero_add]⟩,
      fun call hcall e he => ?_⟩
    have hgood := hok call hcall
    rw [he] at hgood
    cases hgood
  | @failed before revision e hbegins hok =>
    refine ⟨by simpa using hbegins, fun hall => ?_, fun call hcall e' he => ?_⟩
    · have hlast := hall _ (List.mem_append_right _ List.mem_cons_self)
      cases hlast
    · rcases List.mem_append.1 hcall with hcall | hcall
      · have hgood := hok call hcall
        rw [he] at hgood
        cases hgood
      · obtain rfl := List.mem_singleton.1 hcall
        cases he
        exact ⟨List.getLast?_concat, rfl⟩

/-- **The record of a visit.** Keeping it changes nothing else. -/
theorem visit_noted (target : Target (StateM σ)) (ending : Nat → Outcome) (revisions : List Int)
    (removed : Nat) (before : Calls) (s : σ) :
    ∃ (calls : Calls) (outcome : Outcome) (s' : σ),
      visit (noted target) ending revisions removed (before, s) = (outcome, before ++ calls, s') ∧
      visit target ending revisions removed s = (outcome, s') ∧
      Calls.Cover ending revisions removed calls outcome := by
  induction revisions generalizing removed before s with
  | nil =>
    refine ⟨[], _, s, ?_, rfl, .all rfl fun call hcall => by cases hcall⟩
    rw [List.append_nil]
    rfl
  | cons revision rest ih =>
    rw [visit, visit]
    rcases hcompact : target.compact revision s with ⟨e | n, between⟩ <;>
      simp only [bind, StateT.bind, noted, hcompact]
    · have hfailed :
          Calls.Cover ending (revision :: rest) removed ([] ++ [(revision, .error e)])
            (.failed e) :=
        .failed (by simp) fun call hcall => by cases hcall
      exact ⟨[(revision, .error e)], _, between, rfl, rfl, hfailed⟩
    · obtain ⟨calls, outcome, s', hnoted, hplain, hcover⟩ :=
        ih (removed + n) (before ++ [(revision, .ok n)]) between
      refine ⟨(revision, .ok n) :: calls, outcome, s', ?_, hplain, ?_⟩
      · rw [← List.append_cons] at hnoted
        exact hnoted
      · have hfirst : ∀ {later : Calls}, (∀ call ∈ later, call.2.isOk = true) →
            ∀ call ∈ (revision, .ok n) :: later, call.2.isOk = true :=
          fun h => List.forall_mem_cons.2 ⟨rfl, h⟩
        cases hcover with
        | all hcalls hok =>
          have hall :
              Calls.Cover ending (revision :: rest) removed ((revision, .ok n) :: calls) _ :=
            .all (by rw [List.map_cons, hcalls]) (hfirst hok)
          rw [Calls.removed, List.map_cons, List.sum_cons, ← Nat.add_assoc] at hall
          exact hall
        | @failed calls _ _ hbegins hok =>
          have hmore : ((revision, .ok n) :: calls).map Prod.fst ++ _ <+: revision :: rest :=
            List.cons_prefix_cons.2 ⟨rfl, hbegins⟩
          exact Calls.Cover.failed hmore (hfirst hok)

variable {target : Target (StateM σ)} {s s' : σ}

/-- What a compactor asks for: its stops in their order, all of them if they go well and no sum
leaves the range. -/
theorem exists_calls (settings : CompactionSettings) (hwatermark : 0 ≤ watermark)
    (hfits : watermark ≤ Revision.greatest) (hrevision : revision ≤ Revision.greatest)
    (hreads : target.watermark s = (.ok watermark, s')) :
    ∃ (calls : Calls) (outcome : Outcome) (after : σ),
      compactTo (noted target) settings revision ([], s) = (outcome, calls, after) ∧
      compactTo target settings revision s = (outcome, after) ∧
      if wholeWay settings watermark revision ≤ Revision.greatest then
        Calls.Cover .removed (stops settings watermark revision) 0 calls outcome
      else Calls.Cover (fun _ => .overflow) (stops settings watermark revision).dropLast 0 calls
          outcome := by
  have hnotes : (noted target).watermark ([], s) = (.ok watermark, [], s') := by
    simp only [noted, hreads]
  rw [compactTo_of_read hnotes, compactTo_of_read hreads,
    advance_eq_visit _ hwatermark hfits hrevision, advance_eq_visit _ hwatermark hfits hrevision]
  split
  · exact visit_noted target .removed _ 0 [] s'
  · exact visit_noted target (fun _ => .overflow) _ 0 [] s'

end Noted

/-- **Compaction step by step.** Whatever a log answers to a compactor, and whoever else writes to
it meanwhile: the difference that a run takes stays in the range of revisions exactly where at least
the current revision less the greatest one is retained, and else the run breaks down. The stops on
the way from the watermark strictly increase up to the revision, and there are as many as the way
over the size of a step, rounded up. Every sum stays in the range but the last one, which does so
where the whole last step does. As long as no compaction fails, every stop is asked for, in this
order, and the rows gone are counted; but where the last sum leaves the range, the compactor breaks
down instead of asking for the last stop. A compaction that fails is the last one, and its error is
what the compactor comes to. -/
theorem compacts_step_by_step {σ : Type} (target : Target (StateM σ))
    (settings : CompactionSettings) (hretained : Revision.InRange settings.retained)
    {watermark current revision : Int} (hwatermark : 0 ≤ watermark)
    (hbelow : watermark ≤ current) (hcurrent : current ≤ Revision.greatest)
    (hrevision : Revision.InRange revision)
    {s s₁ s₂ : σ} (hasks : target.currentRevision s = (.ok current, s₁))
    (hreads : target.watermark s = (.ok watermark, s₂)) :
    (Revision.InRange (current - settings.retained) ↔
      current - Revision.greatest ≤ settings.retained) ∧
    run target settings s =
      (if current - Revision.greatest ≤ settings.retained then
        compactTo target settings (current - settings.retained) s₁
      else (.overflow, s₁)) ∧
    (watermark :: stops settings watermark revision).Pairwise (· < ·) ∧
    (watermark < revision →
      (stops settings watermark revision).getLast? = some revision ∧
      ((stops settings watermark revision).length : Int) =
        ⌈((revision - watermark : Int) : ℚ) / ((max settings.batchSize 1 : Int) : ℚ)⌉) ∧
    (∀ i < (stops settings watermark revision).length,
      (Revision.InRange (watermark + i * step settings + step settings) ↔
        i + 1 < (stops settings watermark revision).length ∨
          watermark + (stops settings watermark revision).length * step settings ≤
            Revision.greatest)) ∧
    ∃ (calls : Calls) (outcome : Outcome) (s' : σ),
      compactTo (noted target) settings revision ([], s) = (outcome, calls, s') ∧
      compactTo target settings revision s = (outcome, s') ∧
      calls.map Prod.fst <+: stops settings watermark revision ∧
      ((∀ call ∈ calls, call.2.isOk = true) →
        if watermark + (stops settings watermark revision).length * step settings ≤
            Revision.greatest then
          calls.length = (stops settings watermark revision).length ∧
            outcome = .removed calls.removed
        else calls.length + 1 = (stops settings watermark revision).length ∧ outcome = .overflow) ∧
      ∀ call ∈ calls, ∀ e, call.2 = .error e →
        calls.getLast? = some call ∧ outcome = .failed e := by
  have hrange : Revision.InRange (current - settings.retained) ↔
      current - Revision.greatest ≤ settings.retained := by
    obtain ⟨-, hretained⟩ := hretained
    unfold Revision.InRange
    unfold Revision.least Revision.greatest at *
    omega
  have hfits := Int.le_trans hbelow hcurrent
  obtain ⟨calls, outcome, s', hnoted, hplain, hcover⟩ := exists_calls settings hwatermark hfits
    hrevision.2 hreads
  refine ⟨hrange, ?_, (pairwise_stops settings watermark revision).1,
    fun hlt => ⟨getLast?_stops hlt, ?_⟩, ?_, calls, outcome, s', hnoted, hplain, ?_⟩
  · simp only [run_of_read hasks, hrange]
  · rw [length_stops, steps_eq_ceil hlt]
  · intro i hi
    rw [length_stops] at hi ⊢
    exact inRange_sum_iff settings hwatermark hrevision.2 hi
  · rw [length_stops]
    show _ ∧ (_ → if wholeWay settings watermark revision ≤ _ then _ else _) ∧ _
    split at hcover
    · next hwhole =>
      obtain ⟨hbegins, hok, hfailed⟩ := hcover.spec
      refine ⟨hbegins, fun hgood => ?_, hfailed⟩
      obtain ⟨hcalls, houtcome⟩ := hok hgood
      rw [if_pos hwhole, ← length_stops, ← hcalls, List.length_map]
      exact ⟨rfl, houtcome⟩
    · next hwhole =>
      obtain ⟨hbegins, hok, hfailed⟩ := hcover.spec
      refine ⟨hbegins.trans (List.dropLast_prefix _), fun hgood => ?_, hfailed⟩
      obtain ⟨hcalls, houtcome⟩ := hok hgood
      have hlt : watermark < revision := by
        by_contra hle
        rw [wholeWay, steps_of_le (Int.not_lt.1 hle)] at hwhole
        omega
      have hlength := congrArg List.length hcalls
      rw [List.length_map, List.length_dropLast, length_stops, steps_of_lt hlt] at hlength
      rw [if_neg hwhole, steps_of_lt hlt]
      exact ⟨by omega, houtcome⟩

/-- A log that was compacted before is compacted in two steps, and three rows go. -/
theorem exists_compacts_step_by_step : ∃ (db : Database) (calls : Calls) (after : Database),
    db.log = some (Log.play { indexing := .linkFirst } [.create "a" [1] 0, .update "a" [2] 1 0,
      .create "b" [3] 0, .compact 1, .delete "b" 3, .update "a" [4] 2 0]) ∧
    Revision.InRange 2 ∧ Revision.InRange 5 ∧ (0 : Int) ≤ 1 ∧ (1 : Int) ≤ 5 ∧
    5 ≤ Revision.greatest ∧
    alone.currentRevision db = (.ok 5, db) ∧ alone.watermark db = (.ok 1, db) ∧
    compactTo (noted alone) { retained := 2, batchSize := 3 } 5 ([], db) =
      (.removed 4, calls, after) ∧
    calls.map Prod.fst = [4, 5] := by
  let log :=
    Log.play { indexing := .linkFirst } [.create "a" [1] 0, .update "a" [2] 1 0, .create "b" [3] 0,
      .compact 1, .delete "b" 3, .update "a" [4] 2 0]
  let db : Database := { log := some log }
  let settings : CompactionSettings := { retained := 2, batchSize := 3 }
  have hfive : Store.currentRevision log = .ok 5 := by decide +kernel
  have hone : Store.compactedTo log = .ok 1 := by decide +kernel
  have hasks : alone.currentRevision db = (.ok 5, db) := currentRevision_alone rfl hfive
  have hreads : alone.watermark db = (.ok 1, db) := watermark_alone rfl hone
  have hretained : Revision.InRange settings.retained := by decide
  have hrevision : Revision.InRange 5 := by decide
  obtain ⟨-, -, -, -, -, calls, outcome, after, hnoted, hplain, hbegins, hgood, hfailed⟩ :=
    compacts_step_by_step alone settings hretained (by decide) (by decide)
      (by decide) hrevision hasks hreads
  have hstops : stops settings 1 5 = [4, 5] := by decide
  -- what a visit of the stops comes to
  have houtcome : outcome = .removed 4 := by
    have hvisit : (visit alone .removed [4, 5] 0 db).1 = .removed 4 := by decide +kernel
    rw [compactTo_of_read hreads, advance_eq_visit alone (by decide) (by decide) (by decide),
      if_pos (by decide), hstops] at hplain
    rw [hplain] at hvisit
    exact hvisit
  have hok : ∀ call ∈ calls, call.2.isOk = true := by
    rintro ⟨revision, e | n⟩ hcall
    · obtain ⟨-, hfail⟩ := hfailed _ hcall e rfl
      rw [houtcome] at hfail
      cases hfail
    · rfl
  have hroom : 1 + (stops settings 1 5).length * step settings ≤ Revision.greatest := by
    rw [hstops]; decide
  rw [if_pos hroom] at hgood
  obtain ⟨hlength, -⟩ := hgood hok
  rw [hstops] at hbegins hlength
  rw [houtcome] at hnoted
  refine ⟨db, calls, after, rfl, hretained, hrevision, by decide, by decide, by decide, hasks,
    hreads, hnoted, ?_⟩
  exact hbegins.eq_of_length (by rw [List.length_map, hlength])

/-- **A compactor breaks down though its revision is there.** The watermark is 1 and the current
revision 2. A step that is to know no bounds goes from 1 to beyond the greatest revision, where the
sum is taken before the step is cut short; from 0 it does not. And so does the difference of a run
that is to retain as few revisions as a number can say. -/
theorem exists_breakdown : ∃ log fresh : Log,
    fresh = Log.play { indexing := .linkFirst } [.create "a" [1] 0, .update "a" [2] 1 0] ∧
    log = Log.play { indexing := .linkFirst } [.create "a" [1] 0, .update "a" [2] 1 0, .compact 1] ∧
    (compactTo alone { batchSize := Revision.greatest } 2 { log := some fresh }).1 = .removed 1 ∧
    compactTo alone { batchSize := Revision.greatest } 2 { log := some log } =
      (.overflow, { log := some log }) ∧
    run alone { retained := Revision.least } { log := some log } =
      (.overflow, { log := some log }) := by
  let fresh := Log.play { indexing := .linkFirst } [.create "a" [1] 0, .update "a" [2] 1 0]
  let log :=
    Log.play { indexing := .linkFirst } [.create "a" [1] 0, .update "a" [2] 1 0, .compact 1]
  have hzero : Store.compactedTo fresh = .ok 0 := by decide +kernel
  have hone : Store.compactedTo log = .ok 1 := by decide +kernel
  have htwo : Store.currentRevision log = .ok 2 := by decide +kernel
  have hasks : alone.currentRevision { log := some log } = (.ok 2, { log := some log }) :=
    currentRevision_alone rfl htwo
  have hreads : alone.watermark { log := some log } = (.ok 1, { log := some log }) :=
    watermark_alone rfl hone
  have hfresh : alone.watermark { log := some fresh } = (.ok 0, { log := some fresh }) :=
    watermark_alone rfl hzero
  refine ⟨log, fresh, rfl, rfl, ?_, ?_, ?_⟩
  · have hvisit : (visit alone .removed [2] 0 { log := some fresh }).1 = .removed 1 := by
      decide +kernel
    rw [compactTo_of_read hfresh, advance_eq_visit alone (by decide) (by decide) (by decide),
      if_pos (by decide)]
    exact hvisit
  · have hsum : ¬Revision.InRange (1 + step { batchSize := Revision.greatest }) := by decide
    rw [compactTo_of_read hreads, advance_of_overflow alone (by decide) hsum]
    rfl
  · rw [run_of_read hasks, if_neg (by decide)]

end RevisionLog.Compaction
