import RevisionLog.Proofs.Patience

/-!
# Batches of any size

How many rows a watcher reads at once decides how many polls it needs, and nothing else. Its journey
goes one id at a time: a row is passed, or an id that is missing below a greater one is claimed. A
read takes many of these paces, or one, or none while an id is only suspected; but no pace depends
on the size of the batches, and there is only one end.

* `Journey.pace` — one id further, whatever was suspected.
* `Journey.exists_paces` — a read takes some paces.
* `Journey.IsReadable.exists_isOver` — the paces come to an end; `Journey.stand_eq_of_isOver` —
  there is only one.
* `Log.ReadOut` — what a watcher has done that came to the end.
* `Trial.batches_agree` — polls with batches of any size come to the same end.
-/

namespace RevisionLog

open Store Watcher

/-! ## Reads -/

namespace Log

variable {log : Log} {position id : Int} {batch : Nat} {es : List Entry}

theorem exists_row_of_mapM_entry {rows : List Row} (h : rows.mapM Row.entry = .ok es) {e : Entry}
    (he : e ∈ es) : ∃ r ∈ rows, r.entry = .ok e := by
  induction rows generalizing es with
  | nil =>
    cases h
    cases he
  | cons r rows ih =>
    rw [List.mapM_cons] at h
    obtain ⟨f, hf, h⟩ := of_bind_eq_ok h
    obtain ⟨es', hes', h⟩ := of_bind_eq_ok h
    cases h
    rcases List.mem_cons.1 he with rfl | he
    · exact ⟨r, List.mem_cons_self, hf⟩
    · obtain ⟨s, hs, hentry⟩ := ih hes' he
      exact ⟨s, List.mem_cons_of_mem r hs, hentry⟩

/-- What is read is there. -/
theorem exists_row_of_since (h : Store.since log position batch = .ok es) {e : Entry}
    (he : e ∈ es) : ∃ r ∈ log.rows, r.entry = .ok e := by
  obtain ⟨-, front, back, hrows, hread, -⟩ := of_since_eq_ok h
  obtain ⟨r, hr, hentry⟩ := exists_row_of_mapM_entry hread he
  have hmem : r ∈ log.rows.filter (position < ·.id) := by
    rw [hrows]
    exact List.mem_append_left back hr
  exact ⟨r, (List.mem_filter.1 hmem).1, hentry⟩

/-- Where nothing is read, nothing lies ahead. -/
theorem le_of_since_eq_nil (h : Store.since log position batch = .ok []) (hbatch : 0 < batch)
    {r : Row} (hr : r ∈ log.rows) : r.id ≤ position := by
  obtain ⟨-, front, back, hrows, hread, hfull⟩ := of_since_eq_ok h
  have hfront : front = [] := List.map_eq_nil_iff.1 (revisions_of_mapM_entry hread).symm
  rw [hfront, hfull hbatch hfront, List.append_nil, List.filter_eq_nil_iff] at hrows
  simpa using hrows r hr

theorem ReadableFrom.claimed (h : log.ReadableFrom position) (id : Int) :
    (log.claimed id).ReadableFrom position := by
  rw [Log.claimed]
  rcases log.fill_cases id with ⟨log', hfill⟩ | hfill <;> rw [hfill]
  · exact h.fill hfill
  · exact h

/-- A claim writes a placeholder, or is refused and changes nothing. -/
theorem claimed_cases (log : Log) (id : Int) :
    (∀ r, r ∈ (log.claimed id).rows ↔ r = gapRow id ∨ r ∈ log.rows) ∨
      log.claimed id = log ∧ Store.fill log id = .error .keyExists := by
  rw [Log.claimed]
  rcases log.fill_cases id with ⟨log', hfill⟩ | hfill <;> rw [hfill]
  · obtain ⟨-, fresh, rfl⟩ := fill_eq_ok (ask_eq_ok.1 hfill)
    exact Or.inl fun r => mem_rows_put
  · exact Or.inr ⟨rfl, rfl⟩

end Log

/-! ## Paces -/

namespace Journey

variable {batch m n : Nat} {j : Journey} {r : Row} {e : Entry} {es : List Entry}

/-- Where a watcher is, without what it suspects. -/
def stand (j : Journey) : Journey := { j with suspect := none }

/-- One id further: the row of the next id is passed, or the id is claimed, if it is missing below a
greater one. -/
def pace (j : Journey) : Journey :=
  match j.log.row? (j.position + 1) with
  | some r =>
    match r.entry with
    | .ok e => { j with position := j.position + 1, shown := j.shown ++ Watcher.shown [e] }
    | .error _ => j
  | none => if j.log.Lacks (j.position + 1) then { j with log := j.log.claimed (j.position + 1) }
      else j

/-- There is no pace left. -/
def IsOver (j : Journey) : Prop := j.pace = j

theorem row?_eq_none {log : Log} {id : Int} (h : ∀ r ∈ log.rows, r.id ≠ id) : log.row? id = none :=
  List.find?_eq_none.2 fun r hr hid => h r hr (of_decide_eq_true hid)

theorem pace_of_mem (hr : r ∈ j.log.rows) (hid : r.id = j.position + 1) (he : r.entry = .ok e) :
    j.pace = { j with position := j.position + 1, shown := j.shown ++ Watcher.shown [e] } := by
  have hrow : j.log.row? (j.position + 1) = some r := by
    rw [← hid]
    exact Log.row?_of_mem hr
  rw [pace, hrow]
  dsimp only
  rw [he]

theorem pace_of_lacks (h : j.log.Lacks (j.position + 1)) :
    j.pace = { j with log := j.log.claimed (j.position + 1) } := by
  rw [pace, row?_eq_none h.1]
  exact if_pos h

theorem isOver_of_forall_le (h : ∀ r ∈ j.log.rows, r.id ≤ j.position) : j.IsOver := by
  have hmissing : ∀ r ∈ j.log.rows, r.id ≠ j.position + 1 := by
    intro r hr hid
    have hle := h r hr
    omega
  rw [IsOver, pace, row?_eq_none hmissing]
  refine if_neg ?_
  rintro ⟨-, r, hr, hlt⟩
  have hle := h r hr
  omega

/-- What the next pace is. -/
inductive Paced (j : Journey) : Prop
  | pass {r : Row} {e : Entry} (hr : r ∈ j.log.rows) (hid : r.id = j.position + 1)
      (he : r.entry = .ok e)
  | claim (h : j.log.Lacks (j.position + 1))
  | none (h : ∀ r ∈ j.log.rows, r.id ≤ j.position)

/-- Everything ahead can be read. -/
def IsReadable (j : Journey) : Prop := j.log.ReadableFrom j.position

namespace IsReadable

theorem paced (h : j.IsReadable) : j.Paced := by
  by_cases hnext : ∃ r ∈ j.log.rows, r.id = j.position + 1
  · obtain ⟨r, hr, hid⟩ := hnext
    obtain ⟨e, he⟩ := h.rows r hr
    exact .pass hr hid he
  · have hmissing : ∀ r ∈ j.log.rows, r.id ≠ j.position + 1 := fun r hr hid => hnext ⟨r, hr, hid⟩
    by_cases hgreater : ∃ r ∈ j.log.rows, j.position + 1 < r.id
    · exact .claim ⟨hmissing, hgreater⟩
    · refine .none fun r hr => ?_
      have hne := hmissing r hr
      have hle : ¬j.position + 1 < r.id := fun hlt => hgreater ⟨r, hr, hlt⟩
      omega

theorem pace (h : j.IsReadable) : j.pace.IsReadable := by
  cases h.paced with
  | pass hr hid he =>
    rw [pace_of_mem hr hid he]
    refine Log.ReadableFrom.mono h ?_
    dsimp only
    omega
  | claim hlacks =>
    rw [pace_of_lacks hlacks]
    exact Log.ReadableFrom.claimed h _
  | none hnone => rwa [isOver_of_forall_le hnone]

theorem iterate_pace (h : j.IsReadable) (n : Nat) : (Journey.pace^[n] j).IsReadable := by
  induction n with
  | zero => exact h
  | succ n ih =>
    rw [Function.iterate_succ_apply']
    exact ih.pace

theorem of_stand (h : j.stand.IsReadable) : j.IsReadable := h

theorem stand (h : j.IsReadable) : j.stand.IsReadable := h

theorem exists_since (h : j.IsReadable) (batch : Nat) :
    ∃ rows, Store.since j.log j.position batch = .ok rows := by
  obtain ⟨rows, hsince, -⟩ := Log.ReadableFrom.exists_since h batch
  exact ⟨rows, hsince⟩

theorem not_isStuck (h : j.IsReadable) (batch : Nat) : ¬j.IsStuck batch := by
  rintro ⟨e, herror⟩
  obtain ⟨rows, hsince⟩ := h.exists_since (max batch 1)
  rw [hsince] at herror
  cases herror

end IsReadable

/-! ### Reads as paces -/

/-- Rows that follow each other are passed one by one. -/
theorem iterate_pace_of_trail {reached : Int} (htrail : Trail j.position reached es)
    (hes : ∀ e ∈ es, ∃ r ∈ j.log.rows, r.entry = .ok e) :
    pace^[es.length] j = { j with position := reached, shown := j.shown ++ Watcher.shown es } := by
  induction es generalizing j with
  | nil =>
    obtain rfl : j.position = reached := htrail
    rw [Watcher.shown, List.filter_nil, List.append_nil]
    rfl
  | cons e es ih =>
    obtain ⟨r, hr, he⟩ := hes e List.mem_cons_self
    obtain ⟨hnext, hrest⟩ := htrail
    have hid : r.id = j.position + 1 := (Row.of_entry_eq_ok he).1.symm.trans hnext
    rw [hnext] at hrest
    have hsplit : Watcher.shown (e :: es) = Watcher.shown [e] ++ Watcher.shown es :=
      shown_append [e] es
    have hpassed :=
      ih (j := { j with position := j.position + 1, shown := j.shown ++ Watcher.shown [e] }) hrest
      fun f hf => hes f (List.mem_cons_of_mem e hf)
    rw [List.length_cons, Function.iterate_succ_apply, pace_of_mem hr hid he, hpassed, hsplit,
      List.append_assoc]

/-- The next id is suspected already. -/
def IsWary (j : Journey) : Prop := j.suspect = some (j.position + 1)

instance (j : Journey) : Decidable j.IsWary := inferInstanceAs (Decidable (_ = _))

/-- What a read passes, paces pass one by one. Where it passes nothing and no id is missing, there
is no pace left. -/
theorem exists_passed {rows taken : List Entry} {reached : Int} {missing : Option Int}
    (hsince : Store.since j.log j.position (max batch 1) = .ok rows)
    (habsorb : absorb j.position rows = (reached, taken, missing)) :
    ∃ n, pace^[n] j.stand = { j.stand with position := reached, shown := j.shown ++ taken } ∧
      (n = 0 → reached = j.position ∧ taken = [] ∧ (missing = none → j.stand.IsOver)) := by
  obtain ⟨es, rest, rfl, htrail, hshown, hend⟩ := exists_split_of_absorb habsorb
  refine ⟨es.length, ?_, ?_⟩
  · rw [← hshown]
    refine iterate_pace_of_trail (j := j.stand) htrail fun e he => ?_
    exact Log.exists_row_of_since hsince (List.mem_append_left rest he)
  · intro hzero
    obtain rfl := List.length_eq_zero_iff.1 hzero
    obtain rfl : j.position = reached := htrail
    refine ⟨rfl, hshown.symm, ?_⟩
    rintro rfl
    rcases hend with ⟨-, rfl⟩ | ⟨hmissing, -⟩
    · exact isOver_of_forall_le fun r hr => Log.le_of_since_eq_nil hsince (by omega) hr
    · cases hmissing

/-- **A read takes some paces.** It takes none only where there is none left, or where an id begins
to be suspected. -/
theorem exists_paces (hread : j.IsReadable) (hnear : j.Near) (batch : Nat) :
    ∃ n, (j.step batch).stand = pace^[n] j.stand ∧
      (0 < n ∨ j.stand.IsOver ∨ ¬j.IsWary ∧ (j.step batch).IsWary) := by
  obtain ⟨rows, hsince⟩ := hread.exists_since (max batch 1)
  have hstep := step_of_ok hsince
  rcases habsorb : absorb j.position rows with ⟨reached, taken, missing⟩
  obtain ⟨n, hpaces, hnone⟩ := exists_passed hsince habsorb
  rcases hjudge : j.watcher.judge rows with ⟨verdict, v⟩
  obtain ⟨hposition, -, hverdict⟩ := of_judge hjudge
  have habsorb' : absorb j.watcher.position rows = (reached, taken, missing) := habsorb
  rw [habsorb'] at hposition hverdict
  dsimp only at hposition hverdict
  rw [hjudge] at hstep
  cases hverdict with
  | claim hmissing hnothing hsuspect hforgets =>
    -- what is suspected is the next id or behind, and what is missing is ahead
    have hreached : v.position = j.position := by
      have hle := hnear _ hsuspect
      have hge := le_absorb j.position rows
      rw [habsorb] at hge
      dsimp only at hge
      omega
    obtain ⟨-, hlacks⟩ := Log.lacks_of_absorb hsince (hmissing ▸ habsorb)
    rw [hreached] at hlacks
    have hpace := pace_of_lacks (j := j.stand) hlacks
    refine ⟨1, ?_, Or.inl Nat.one_pos⟩
    rw [hstep, take, Function.iterate_one, hpace, hreached]
    rfl
  | miss hmissing hnew hsuspect =>
    refine ⟨n, by rw [hpaces, hstep, take, hposition]; rfl, ?_⟩
    rcases n.eq_zero_or_pos with hzero | hpos
    · obtain ⟨rfl, rfl, -⟩ := hnone hzero
      rw [hposition] at hnew hsuspect
      refine Or.inr (Or.inr ⟨fun hwary => hnew ⟨rfl, hwary⟩, ?_⟩)
      rw [hstep, take, IsWary, hposition]
      exact hsuspect
    · exact Or.inl hpos
  | again hmissing hnothing hlt hsuspect =>
    refine ⟨n, by rw [hpaces, hstep, take, hposition, hnothing, List.append_nil]; rfl, Or.inl ?_⟩
    refine n.pos_of_ne_zero fun hzero => ?_
    have hlt : j.position < v.position := hlt
    rw [hposition, (hnone hzero).1] at hlt
    exact Int.lt_irrefl _ hlt
  | all hmissing hsome hforgets =>
    refine ⟨n, by rw [hpaces, hstep, take, hposition]; rfl, ?_⟩
    rcases n.eq_zero_or_pos with hzero | hpos
    · exact Or.inr (Or.inl ((hnone hzero).2.2 hmissing))
    · exact Or.inl hpos

theorem IsReadable.step (h : j.IsReadable) (hnear : j.Near) (batch : Nat) :
    (j.step batch).IsReadable := by
  obtain ⟨n, hstand, -⟩ := exists_paces h hnear batch
  refine .of_stand ?_
  rw [hstand]
  exact h.stand.iterate_pace n

/-- Where there is no pace left, none is ever taken. -/
theorem IsOver.iterate (h : j.IsOver) (n : Nat) : pace^[n] j = j := Function.iterate_fixed h n

/-- **Two reads take at least one pace**, unless there is none left. -/
theorem exists_paces_iterate (hread : j.IsReadable) (hnear : j.Near) (hfresh : j.suspect = none)
    (batch m : Nat) :
    ((step batch)^[m] j).IsReadable ∧ ((step batch)^[m] j).Near ∧
      ∃ n, ((step batch)^[m] j).stand = pace^[n] j ∧
        ((pace^[n] j).IsOver ∨ m ≤ 2 * n + if ((step batch)^[m] j).IsWary then 1 else 0) := by
  induction m with
  | zero =>
    refine ⟨hread, hnear, 0, ?_, Or.inr (Nat.zero_le _)⟩
    rw [Function.iterate_zero, id, Function.iterate_zero, id, stand, ← hfresh]
  | succ m ih =>
    obtain ⟨hread', hnear', n, hstand, hfar⟩ := ih
    obtain ⟨k, hnext, hgains⟩ := exists_paces hread' hnear' batch
    rw [Function.iterate_succ_apply']
    refine ⟨hread'.step hnear' batch, hnear'.step batch, k + n, ?_, ?_⟩
    · rw [hnext, hstand, Function.iterate_add_apply]
    · rw [Function.iterate_add_apply]
      rw [hstand] at hgains
      rcases hfar with hover | hfar
      · exact Or.inl (by rwa [hover.iterate])
      rcases hgains with hpos | hover | ⟨hcareless, hwary⟩
      · refine Or.inr ?_
        split at hfar <;> omega
      · exact Or.inl (by rwa [hover.iterate])
      · rw [if_neg hcareless] at hfar
        rw [if_pos hwary]
        exact Or.inr (by omega)

/-! ### The end -/

/-- **The paces come to an end.** Every id takes two of them at most, one to claim it and one to
pass its row. -/
theorem IsReadable.exists_isOver (h : j.IsReadable) : ∃ n, (Journey.pace^[n] j).IsOver := by
  have hbound : ∃ d : Nat, ∀ r ∈ j.log.rows, r.id ≤ j.position + d := by
    refine ⟨(j.log.greatest?.getD 0 - j.position).toNat, fun r hr => ?_⟩
    have hle := Log.id_le_greatest hr
    omega
  obtain ⟨d, hd⟩ := hbound
  induction d generalizing j with
  | zero => exact ⟨0, isOver_of_forall_le fun r hr => by simpa using hd r hr⟩
  | succ d ih =>
    -- a row that is passed lies behind
    have hpass : ∀ {j : Journey}, j.IsReadable →
        (∀ r ∈ j.log.rows, r.id ≤ j.position + (d + 1 : Nat)) →
        (∃ r ∈ j.log.rows, r.id = j.position + 1) → ∃ n, (Journey.pace^[n] j).IsOver := by
      rintro j h hd ⟨r, hr, hid⟩
      obtain ⟨e, he⟩ := h.rows r hr
      have hpace := pace_of_mem hr hid he
      obtain ⟨n, hover⟩ := ih h.pace (by
        rw [hpace]
        dsimp only
        intro s hs
        have hle := hd s hs
        omega)
      exact ⟨n + 1, by rwa [Function.iterate_succ_apply]⟩
    cases h.paced with
    | pass hr hid he => exact hpass h hd ⟨_, hr, hid⟩
    | none hnone => exact ⟨0, isOver_of_forall_le hnone⟩
    | claim hlacks =>
      have hpace := pace_of_lacks hlacks
      have hpaced : j.pace.log = j.log.claimed (j.position + 1) ∧ j.pace.position = j.position := by
        rw [hpace]
        exact ⟨rfl, rfl⟩
      rcases j.log.claimed_cases (j.position + 1) with hmem | ⟨hsame, -⟩
      · obtain ⟨n, hover⟩ := hpass h.pace
          (by
            rw [hpaced.1, hpaced.2]
            intro r hr
            rcases (hmem r).1 hr with rfl | hr
            · rw [id_gapRow]
              omega
            · exact hd r hr)
          (by
            rw [hpaced.1, hpaced.2]
            exact ⟨_, (hmem _).2 (Or.inl rfl), rfl⟩)
        exact ⟨n + 1, by rwa [Function.iterate_succ_apply]⟩
      · -- the claim is refused for good
        refine ⟨0, ?_⟩
        show j.pace = j
        rw [hpace, hsame]

/-- There is only one end. -/
theorem iterate_eq_of_isOver (hm : (pace^[m] j).IsOver) (hn : (pace^[n] j).IsOver) :
    pace^[m] j = pace^[n] j := by
  rcases Nat.le_total m n with hle | hle
  · obtain ⟨k, rfl⟩ := Nat.exists_eq_add_of_le' hle
    rw [Function.iterate_add_apply, hm.iterate]
  · obtain ⟨k, rfl⟩ := Nat.exists_eq_add_of_le' hle
    rw [Function.iterate_add_apply, hn.iterate]

/-- **Every journey comes to the end of the paces**, whatever the size of its batches. -/
theorem stand_eq_of_isOver (hread : j.IsReadable) (hnear : j.Near) (hfresh : j.suspect = none)
    (hover : (pace^[n] j).IsOver) (batch : Nat) (hm : 2 * n + 2 ≤ m) :
    ((step batch)^[m] j).stand = pace^[n] j := by
  obtain ⟨-, -, k, hstand, hfar⟩ := exists_paces_iterate hread hnear hfresh batch m
  rw [hstand]
  refine iterate_eq_of_isOver ?_ hover
  rcases hfar with hover' | hfar
  · exact hover'
  · have hle : n ≤ k := by
      split at hfar <;> omega
    obtain ⟨more, rfl⟩ := Nat.exists_eq_add_of_le' hle
    rwa [Function.iterate_add_apply, hover.iterate]

end Journey

/-! ## What is done at the end -/

/-- What is done with a log from a revision on, once a watcher has come to the end. -/
structure Log.ReadOut (log : Log) (start : Int) (es : List Entry) (cursor : Int) (final : Log) :
    Prop where
  /-- every id up to the cursor has a row, and all of these rows but the placeholders were handed
  out in order -/
  read : ∃ passed, Trail start cursor passed ∧ (∀ e ∈ passed, ∃ r ∈ final.rows, r.entry = .ok e) ∧
    es = Watcher.shown passed
  kept : ∀ r ∈ log.rows, r ∈ final.rows
  /-- nothing but placeholders was written -/
  claimed : ∀ r ∈ final.rows, r ∈ log.rows ∨ ∃ id, r = gapRow id ∧ start < id ∧ id ≤ cursor
  /-- nothing is left to read, or the next id is missing for good -/
  ended : (∀ r ∈ final.rows, r.id ≤ cursor) ∨
    final.Lacks (cursor + 1) ∧ Store.fill final (cursor + 1) = .error .keyExists

namespace Journey

variable {log : Log} {start : Int} {j : Journey} {n : Nat}

/-- What is done with a log on the way. A placeholder may be written that is still to be passed. -/
structure Walked (log : Log) (start : Int) (j : Journey) : Prop where
  read : ∃ passed, Trail start j.position passed ∧
    (∀ e ∈ passed, ∃ r ∈ j.log.rows, r.entry = .ok e) ∧ j.shown = Watcher.shown passed
  kept : ∀ r ∈ log.rows, r ∈ j.log.rows
  claimed : ∀ r ∈ j.log.rows, r ∈ log.rows ∨ ∃ id, r = gapRow id ∧ start < id ∧ id ≤ j.position + 1

namespace Walked

theorem pass (h : Walked log start j) {r : Row} {e : Entry} (hr : r ∈ j.log.rows)
    (hid : r.id = j.position + 1) (he : r.entry = .ok e) : Walked log start j.pace := by
  obtain ⟨passed, htrail, hpassed, hshown⟩ := h.read
  have hnext : e.revision = j.position + 1 := (Row.of_entry_eq_ok he).1.trans hid
  rw [pace_of_mem hr hid he]
  refine ⟨⟨passed ++ [e], hnext ▸ htrail.concat hnext, ?_, ?_⟩, h.kept, ?_⟩
  · intro f hf
    rcases List.mem_append.1 hf with hf | hf
    · exact hpassed f hf
    · obtain rfl := List.mem_singleton.1 hf
      exact ⟨r, hr, he⟩
  · rw [hshown, shown_append]
  · intro s hs
    refine (h.claimed s hs).imp_right ?_
    rintro ⟨id, rfl, hlt, hle⟩
    exact ⟨id, rfl, hlt, Int.le_trans hle (by dsimp only; omega)⟩

theorem claim (h : Walked log start j) (hlacks : j.log.Lacks (j.position + 1)) :
    Walked log start j.pace := by
  rw [pace_of_lacks hlacks]
  rcases j.log.claimed_cases (j.position + 1) with hmem | ⟨hsame, -⟩
  · obtain ⟨passed, htrail, hpassed, hshown⟩ := h.read
    refine ⟨⟨passed, htrail, ?_, hshown⟩, fun r hr => (hmem r).2 (Or.inr (h.kept r hr)), ?_⟩
    · intro e he
      obtain ⟨r, hr, hentry⟩ := hpassed e he
      exact ⟨r, (hmem r).2 (Or.inr hr), hentry⟩
    · intro r hr
      rcases (hmem r).1 hr with rfl | hr
      · have hle := htrail.le
        exact Or.inr ⟨j.position + 1, rfl, by omega, Int.le_refl _⟩
      · exact h.claimed r hr
  · rw [hsame]
    exact h

theorem iterate (h : Walked log start j) (hread : j.IsReadable) (n : Nat) :
    Walked log start (pace^[n] j) := by
  induction n with
  | zero => exact h
  | succ n ih =>
    rw [Function.iterate_succ_apply']
    cases (hread.iterate_pace n).paced with
    | pass hr hid he => exact ih.pass hr hid he
    | claim hlacks => exact ih.claim hlacks
    | none hnone => rwa [isOver_of_forall_le hnone]

/-- At the end all is done. -/
theorem readOut (h : Walked log start j) (hread : j.IsReadable) (hover : j.IsOver) :
    log.ReadOut start j.shown j.position j.log := by
  have hover : j.pace = j := hover
  -- no placeholder is written that is not passed
  have hclaimed : (∀ r ∈ j.log.rows, r.id ≠ j.position + 1) →
      ∀ r ∈ j.log.rows, r ∈ log.rows ∨ ∃ id, r = gapRow id ∧ start < id ∧ id ≤ j.position := by
    intro hmissing r hr
    refine (h.claimed r hr).imp_right ?_
    rintro ⟨id, rfl, hlt, hle⟩
    have hne : id ≠ j.position + 1 := hmissing _ hr
    exact ⟨id, rfl, hlt, by omega⟩
  cases hread.paced with
  | pass hr hid he =>
    have hposition := congrArg Journey.position hover
    rw [pace_of_mem hr hid he] at hposition
    dsimp only at hposition
    omega
  | claim hlacks =>
    refine ⟨h.read, h.kept, hclaimed hlacks.1, Or.inr ⟨hlacks, ?_⟩⟩
    rcases j.log.claimed_cases (j.position + 1) with hmem | ⟨-, hfill⟩
    · have hlog := congrArg Journey.log hover
      rw [pace_of_lacks hlacks] at hlog
      have hfilled : gapRow (j.position + 1) ∈ j.log.rows := hlog ▸ (hmem _).2 (Or.inl rfl)
      exact absurd rfl (hlacks.1 _ hfilled)
    · exact hfill
  | none hnone =>
    refine ⟨h.read, h.kept, hclaimed fun r hr hid => ?_, Or.inl hnone⟩
    have hle := hnone r hr
    omega

end Walked

end Journey

/-! ## Polls -/

namespace Trial

variable {batch m : Nat} {bound : Log → Nat} {t : Trial} {j : Journey}

/-- A watcher that was started on a log, after so many polls where nothing else happens. -/
def polled (log : Log) (revision : Int) (batch : Nat) (bound : Log → Nat) (n : Nat) : Trial :=
  (start log revision).run batch bound (List.replicate n (.poll []))

/-- A journey through rows that can be read never fails, so that a poll leaves the cursor at the
position. -/
theorem cursor_poll (bound : Log → Nat) (hread : ∀ n, ((Journey.step batch)^[n] j).IsReadable)
    (h : Property.Of (j.GetsOn batch m) t.watcher t.delivered t.scene)
    (hnone : t.watcher.pending = [])
    (hcursor : t.watcher.cursor = t.watcher.position) :
    (t.pull batch bound (.poll [])).watcher.cursor =
        (t.pull batch bound (.poll [])).watcher.position := by
  rw [pull]
  dsimp only [Scene.bounded, Pulling.stage, Scene.turnPage]
  rcases hpoll : Watcher.poll (Scene.source batch) (bound t.scene.log + 1) t.watcher
    { t.scene with disturbances := [], pages := [] :: t.scene.pages } with ⟨⟨outcome, watcher⟩,
      scene⟩
  cases polled_of_poll hpoll with
  | flushed => rfl
  | ended => exact hcursor
  | fetched => rfl
  | failed hopen _ hfetch =>
    have hstands := h.2
    rw [hopen, hnone, List.append_nil] at hstands
    have hsmooth :
        Scene.IsSmooth { t.scene with disturbances := [], pages := [] :: t.scene.pages } :=
      fun d hd => by cases hd
    obtain ⟨n, habreast, -⟩ := hstands.follows
    have hbegun :
      ((Journey.step batch)^[n] j).Abreast t.watcher.suspect t.watcher.position t.delivered
        { t.scene with disturbances := [], pages := [] :: t.scene.pages } :=
          habreast.of_log_eq rfl hsmooth.quiet
    obtain ⟨k, hreaches⟩ := hbegun.fetch hfetch
    have hstuck := hreaches.stuck hsmooth _ rfl
    rw [← Function.iterate_add_apply] at hstuck
    exact absurd hstuck ((hread _).not_isStuck batch)

theorem cursor_polls (bound : Log → Nat) (hread : ∀ n, ((Journey.step batch)^[n] j).IsReadable)
    (h : Property.Of (j.GetsOn batch m) t.watcher t.delivered t.scene)
    (hnone : t.watcher.pending = [])
    (hcursor : t.watcher.cursor = t.watcher.position) (n : Nat) :
    (t.run batch bound (List.replicate n (.poll []))).watcher.cursor =
      (t.run batch bound (List.replicate n (.poll []))).watcher.position := by
  induction n generalizing t m with
  | zero => exact hcursor
  | succ n ih =>
    obtain ⟨hnone', hgoes⟩ := getsOn_poll bound h
    exact ih (hgoes hnone) hnone' (cursor_poll bound hread h hnone hcursor)

/-- What polls have done in the end, for the paces after which there is none left. -/
theorem polled_of_isOver {log : Log} {revision : Int} {last n : Nat}
    (h : log.ReadableFrom (max revision 0))
    (hover : (Journey.pace^[last] { position := max revision 0, log }).IsOver) (batch : Nat)
    (bound : Log → Nat) (hn : 4 * last + 5 ≤ n) :
    let j := Journey.pace^[last] { position := max revision 0, log }
    (polled log revision batch bound n).delivered = j.shown ∧
      (polled log revision batch bound n).watcher.cursor = j.position ∧
      (polled log revision batch bound n).watcher.done = false ∧
      (polled log revision batch bound n).scene.log = j.log := by
  have hstart := abreast_start log revision
  set j : Journey := { position := max revision 0, log }
  have hread : j.IsReadable := h
  have hsteps : ∀ n, ((Journey.step batch)^[n] j).IsReadable := fun n =>
    (Journey.exists_paces_iterate hread hstart.journey rfl batch n).1
  have hbegun : Property.Of (j.GetsOn batch 0) (start log revision).watcher
      (start log revision).delivered (start log revision).scene :=
    of_start log revision
      { calm := ⟨(fun d hd => by cases hd), fun cause hcause => by cases hcause⟩
        follows := ⟨0, hstart, (fun hended => by cases hended), Or.inr (Nat.zero_le _)⟩ }
  obtain ⟨⟨-, -, k, habreast, hended, hfar⟩, hnone⟩ := getsOn_polls bound hbegun rfl n
  have hcursor := cursor_polls bound hsteps hbegun rfl rfl n
  have hfar : 2 * last + 2 ≤ k := by
    rcases hfar with hstuck | hfar
    · exact absurd hstuck ((hsteps k).not_isStuck batch)
    · split at hfar <;> omega
  have hstand := Journey.stand_eq_of_isOver hread hstart.journey rfl hover batch hfar
  dsimp only
  rw [← hstand]
  refine ⟨?_, hcursor.trans habreast.here.symm, ?_, habreast.log.symm⟩
  · have hshown := habreast.shown
    rw [hnone, List.append_nil] at hshown
    exact hshown.symm
  · exact eq_false_of_ne_true fun hdone => absurd (hended hdone) ((hsteps k).not_isStuck batch)

/-- **The size of batches makes no difference.** On a log that can be read from the start of a
watcher on, polls come to an end, after which they change nothing. There every row ahead was handed
out and every missing id filled, up to an id that is missing for good; and what was handed out, the
cursor and the log are the same for batches of any size. -/
theorem batches_agree {log : Log} {revision : Int} (h : log.ReadableFrom (max revision 0)) :
    ∃ es cursor final, log.ReadOut (max revision 0) es cursor final ∧
      ∀ batch bound, ∃ enough, ∀ n, enough ≤ n →
        (polled log revision batch bound n).delivered = es ∧
        (polled log revision batch bound n).watcher.cursor = cursor ∧
        (polled log revision batch bound n).watcher.done = false ∧
        (polled log revision batch bound n).scene.log = final := by
  set j : Journey := { position := max revision 0, log } with hj
  have hread : j.IsReadable := h
  obtain ⟨last, hover⟩ := hread.exists_isOver
  have hwalked : Journey.Walked log (max revision 0) j :=
    ⟨⟨[], rfl, (fun e he => by cases he), rfl⟩, fun r hr => hr, fun r hr => Or.inl hr⟩
  refine ⟨_, _, _, (hwalked.iterate hread last).readOut (hread.iterate_pace last) hover, ?_⟩
  exact fun batch bound => ⟨4 * last + 5, fun n hn => polled_of_isOver h hover batch bound hn⟩

/-- Between two rows of users there are a missing id, two placeholders and another missing id. In
the end both rows were handed out, and all ids are there. -/
theorem exists_batches_agree : ∃ log : Log,
    log = (World.act { log := { indexing := .linkFirst } }
      [.commit ⟨1, "a", true, false, 1, 0, 0, [1], []⟩, .fill 3, .fill 4,
        .commit ⟨6, "c", true, false, 6, 0, 0, [3], []⟩]).log ∧
    log.Lacks 2 ∧ log.Lacks 5 ∧ log.ReadableFrom (max 0 0) ∧
    ∀ batch bound, ∃ enough, ∀ n, enough ≤ n →
      (polled log 0 batch bound n).delivered =
        [⟨1, "a", true, false, 1, 0, 0, [1], []⟩, ⟨6, "c", true, false, 6, 0, 0, [3], []⟩] ∧
      (polled log 0 batch bound n).watcher.cursor = 6 ∧
      (polled log 0 batch bound n).watcher.done = false ∧
      (polled log 0 batch bound n).scene.log.rows.map Row.id = [1, 2, 3, 4, 5, 6] := by
  let log := (World.act { log := { indexing := .linkFirst } }
    [.commit ⟨1, "a", true, false, 1, 0, 0, [1], []⟩, .fill 3, .fill 4,
      .commit ⟨6, "c", true, false, 6, 0, 0, [3], []⟩]).log
  have htidy : log.Tidy :=
    ((World.lasting_start (Log.sound_empty .linkFirst).toTidy).act _).lasting.tidy _
      List.mem_cons_self
  have hwatermark : Store.compactedTo log = .ok 0 := by decide +kernel
  have hread : log.ReadableFrom (max 0 0) :=
    ⟨fun r hr => ⟨_, (htidy.plain r hr).entry_eq⟩, 0, hwatermark, by decide⟩
  obtain ⟨es, cursor, final, -, hagree⟩ := batches_agree hread
  -- what the end is shows in batches of one row
  let j := Journey.pace^[8] { position := max 0 0, log }
  have hover : j.IsOver := Journey.isOver_of_forall_le (by decide +kernel)
  obtain ⟨enough, hsame⟩ := hagree 1 fun _ => 0
  obtain ⟨hes, hcursor, -, hfinal⟩ := hsame (max enough 37) (Nat.le_max_left _ _)
  obtain ⟨hshown, hposition, -, hlog⟩ :=
    polled_of_isOver hread hover 1 (fun _ => 0) (Nat.le_max_right enough 37)
  have hes : es = _ := (hes.symm.trans hshown).trans
    (by decide +kernel : j.shown =
      [⟨1, "a", true, false, 1, 0, 0, [1], []⟩, ⟨6, "c", true, false, 6, 0, 0, [3], []⟩])
  have hcursor : cursor = 6 :=
    (hcursor.symm.trans hposition).trans (by decide +kernel : j.position = 6)
  have hfinal : final.rows.map Row.id = [1, 2, 3, 4, 5, 6] := by
    rw [← hfinal, hlog]
    decide +kernel
  refine ⟨log, rfl, by decide +kernel, by decide +kernel, hread, fun batch bound => ?_⟩
  obtain ⟨enough, hsame⟩ := hagree batch bound
  refine ⟨enough, fun n hn => ?_⟩
  obtain ⟨hdelivered, hhere, hopen, hleft⟩ := hsame n hn
  exact ⟨hdelivered.trans hes, hhere.trans hcursor, hopen, by rw [hleft, hfinal]⟩

end Trial

end RevisionLog
