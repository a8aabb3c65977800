import RevisionLog.Proofs.Rebuilding

/-!
# What a list selects

A list and a count are asked for the names that begin with a text. What they select is decided by a
pattern, in which the characters with a meaning of their own are escaped. The escapes do their work:
no character of the text acts as a wildcard. What remains of the rules of patterns is that letters
match in either case, that the last two characters of the first plane are read as the replacement
character, and that nothing behind a NUL is looked at. So more names are selected than those that
begin with the text, where names differ in the case of letters or in these characters.

* `Pattern.Passes` — when a name passes for one that begins with a text.
* `Pattern.selects_ofPrefix` — the pattern of a text selects the names that pass, and no others.
* `Log.Start.list_selects` — a list has the live states of these names, and a count is their number.
* `Log.exists_list_otherCase` — a list of the names that begin with a small letter has one that
  begins with a capital.
-/

namespace RevisionLog

namespace Pattern

/-! ## Characters -/

theorem isUpper_iff {c : Char} : c.isUpper = true ↔ 65 ≤ c.toNat ∧ c.toNat ≤ 90 :=
  decide_eq_true_iff.trans (and_congr UInt32.le_iff_toNat_le UInt32.le_iff_toNat_le)

theorem toNat_toLower (c : Char) :
    c.toLower.toNat = if c.isUpper then c.toNat + 32 else c.toNat := by
  unfold Char.toLower
  split
  · next hcapital =>
    have hupper : c.isUpper = true := decide_eq_true hcapital
    have hle : c.toNat ≤ 90 := (isUpper_iff.1 hupper).2
    rw [if_pos hupper]
    change (c.val + 32).toNat = c.val.toNat + 32
    rw [UInt32.toNat_add]
    exact Nat.mod_eq_of_lt (by change c.toNat + 32 < 2 ^ 32; omega)
  · next hother =>
    have hplain : ¬c.isUpper = true := fun hupper => hother (of_decide_eq_true hupper)
    rw [if_neg hplain]

/-- Only a NUL is the same as one. -/
theorem sameLetter_nul (c : Char) : sameLetter '\x00' c = decide (c = '\x00') := by
  have hzero : ('\x00' : Char).toLower.toNat = 0 := by decide
  rw [sameLetter]
  refine decide_eq_decide.2 ⟨fun heq => ?_, fun heq => by rw [heq]⟩
  have hnat := congrArg Char.toNat heq
  rw [hzero, toNat_toLower] at hnat
  split at hnat
  · omega
  · exact Char.toNat_inj.1 hnat.symm

theorem looksSame_nul (c : Char) : looksSame '\x00' c = decide (c = '\x00') := by
  have hread : seen c = '\x00' ↔ c = '\x00' := by
    rw [seen]
    split
    · next hlast => rcases hlast with rfl | rfl <;> decide
    · rfl
  have hself : seen '\x00' = '\x00' := by decide
  rw [looksSame, hself, sameLetter_nul]
  exact decide_eq_decide.2 hread

theorem takeWhile_looksSame (name : List Char) :
    (name.takeWhile fun c => !looksSame '\x00' c) = untilNul name := by
  simp only [looksSame_nul, untilNul, ne_eq, decide_not]

/-! ## Escaped texts -/

/-- A text as the engine compares it: as it reads the characters, with ASCII letters in one case. -/
def folded (cs : List Char) : List Char := cs.map fun c => (seen c).toLower

/-- The pieces that match a text, letters in either case. -/
def literals (cs : List Char) : List Piece := cs.map .literal

/-- A character without a meaning of its own stands for itself. -/
theorem pieces?_plain {c : Char} {cs : List Char} (hplain : c ≠ '%' ∧ c ≠ '_' ∧ c ≠ '\\') :
    pieces? (c :: cs) = (pieces? cs).map (.literal c :: ·) := by
  obtain ⟨hrun, hone, htaken⟩ := hplain
  exact pieces?.eq_6 c cs (fun h => absurd h htaken) (fun _ _ h => absurd h htaken) hrun hone

/-- **No character of an escaped text has a meaning of its own.** -/
theorem pieces?_escape_append (cs rest : List Char) :
    pieces? (escape cs ++ rest) = (pieces? rest).map (literals cs ++ ·) := by
  induction cs with
  | nil =>
    rw [escape, List.nil_append]
    exact Option.map_id'.symm
  | cons c cs ih =>
    have hstep : pieces? (escape (c :: cs) ++ rest) =
        (pieces? (escape cs ++ rest)).map (.literal c :: ·) := by
      rw [escape]
      split
      · rw [List.cons_append, List.cons_append, pieces?]
      · next hplain =>
        simp only [isSpecial, Bool.or_eq_true, decide_eq_true_eq, not_or] at hplain
        obtain ⟨⟨hrun, hone⟩, hescape⟩ := hplain
        exact pieces?_plain ⟨hrun, hone, hescape⟩
    rw [hstep, ih, Option.map_map]
    rfl

/-- What stands before the first NUL does not end in a text without one. -/
theorem untilNul_append {cs : List Char} (hnul : '\x00' ∉ cs) (rest : List Char) :
    untilNul (cs ++ rest) = cs ++ untilNul rest := by
  refine List.takeWhile_append_of_pos ?_
  intro c hc
  exact decide_eq_true fun hzero => hnul (hzero ▸ hc)

/-- A NUL ends a pattern where it ends the text that the pattern was made of. -/
theorem untilNul_escape_append (cs rest : List Char) : untilNul (escape cs ++ rest) =
    if '\x00' ∈ cs then escape (untilNul cs) else escape cs ++ untilNul rest := by
  induction cs with
  | nil => rfl
  | cons c cs ih =>
    by_cases hzero : c = '\x00'
    · subst hzero
      rfl
    · have hescape :
          ∀ ds, escape (c :: ds) = (if isSpecial c then ['\\', c] else [c]) ++ escape ds := by
        intro ds
        rw [escape]
        split <;> rfl
      have hnul : '\x00' ∉ (if isSpecial c then ['\\', c] else [c]) := by
        split <;> simp [Ne.symm hzero]
      have hsingle : '\x00' ∉ [c] := by simp [Ne.symm hzero]
      have huntil : untilNul (c :: cs) = c :: untilNul cs := untilNul_append hsingle cs
      have hmem : '\x00' ∈ c :: cs ↔ '\x00' ∈ cs := by simp [Ne.symm hzero]
      rw [hescape, List.append_assoc, untilNul_append hnul, ih, huntil, hescape]
      by_cases hcs : '\x00' ∈ cs
      · rw [if_pos hcs, if_pos (hmem.2 hcs)]
      · rw [if_neg hcs, if_neg (mt hmem.1 hcs), List.append_assoc]

/-! ## Names that match -/

theorem covers_literals {cs name : List Char} :
    covers looksSame (literals cs) name = true ↔ folded cs = folded name := by
  induction cs generalizing name with
  | nil => cases name <;> simp [literals, covers, folded]
  | cons c cs ih =>
    cases name with
    | nil => simp [literals, covers, folded]
    | cons d name =>
      have hrest : covers looksSame (literals cs) name = true ↔ _ := ih
      simp only [literals, folded] at hrest
      simp [literals, covers, folded, looksSame, sameLetter, hrest]

theorem covers_literals_run {cs name : List Char} :
    covers looksSame (literals cs ++ [.run]) name = true ↔ folded cs <+: folded name := by
  induction cs generalizing name with
  | nil =>
    have hrun : covers looksSame [.run] name = true :=
      List.any_eq_true.2 ⟨[], nil_mem_suffixes name, rfl⟩
    simp [literals, folded, hrun]
  | cons c cs ih =>
    cases name with
    | nil => simp [literals, covers, folded]
    | cons d name =>
      have hrest : covers looksSame (literals cs ++ [.run]) name = true ↔ _ := ih
      simp only [literals, folded] at hrest
      simp [literals, covers, folded, looksSame, sameLetter, List.cons_prefix_cons, hrest]

/-- A name passes for one that begins with a text. Letters may differ in their case, characters that
the engine cannot tell apart are the same, and of the name only what stands before a NUL is looked
at. A text with a NUL has to be the whole of that, up to its own NUL. -/
def Passes (start name : List Char) : Prop :=
  if '\x00' ∈ start then folded (untilNul start) = folded (untilNul name)
  else folded start <+: folded (untilNul name)

instance (start name : List Char) : Decidable (Passes start name) := by
  rw [Passes]
  infer_instance

/-- **The pattern of a text selects the names that pass** for names that begin with the text, and no
others. -/
theorem selects_ofPrefix {start : String} {name : List Char} :
    selects (ofPrefix start).toList name = true ↔ Passes start.toList name := by
  rw [selects, finds, ofPrefix, String.toList_ofList, untilNul_escape_append, takeWhile_looksSame,
    Passes]
  by_cases hnul : '\x00' ∈ start.toList
  · have hpieces := pieces?_escape_append (untilNul start.toList) []
    rw [List.append_nil, pieces?, Option.map_some, List.append_nil] at hpieces
    rw [if_pos hnul, if_pos hnul, hpieces]
    exact covers_literals
  · have hpieces := pieces?_escape_append start.toList (untilNul ['%'])
    have hrun : pieces? (untilNul ['%']) = some [.run] := by decide
    rw [hrun, Option.map_some] at hpieces
    rw [if_neg hnul, if_neg hnul, hpieces]
    exact covers_literals_run

/-- The engine takes these for one character. -/
example : selects (ofPrefix "\uffff").toList "\ufffea".toList = true := by decide +kernel

end Pattern

/-! ## Lists and counts -/

namespace Log

variable {log : Log}

/-- A pattern that is too long is refused unless the log is empty. -/
theorem Intact.overlong_iff (h : log.Intact) (pattern : String) (revision : Int) :
    log.Overlong pattern revision ↔ Pattern.sizeLimit < pattern.utf8ByteSize ∧ log.rows ≠ [] := by
  refine and_congr_right fun _ => ?_
  constructor
  · rintro ⟨e, he, -⟩ hnil
    rw [entries, hnil] at he
    cases he
  · intro hrows
    obtain ⟨r, hr⟩ := List.exists_mem_of_ne_nil _ hrows
    exact ⟨r.toEntry, List.mem_map_of_mem hr, Or.inl (by rw [h.indexed]; decide)⟩

/-- A revision that can be read is zero, or lies between the watermark and the current revision. -/
theorem Tidy.exists_resolve (h : log.Tidy) {revision watermark current : Int}
    (hwatermark : Store.compactedTo log = .ok watermark)
    (hcurrent : Store.currentRevision log = .ok current)
    (hreadable : revision = 0 ∨ watermark ≤ revision ∧ revision ≤ current) :
    ∃ at', Store.resolve log revision = .ok at' := by
  obtain rfl : watermark = log.floor := Except.ok.inj (hwatermark.symm.trans h.store_compactedTo)
  obtain rfl : current = log.current := Except.ok.inj (hcurrent.symm.trans h.store_currentRevision)
  rw [h.resolve_eq]
  rcases hreadable with hzero | ⟨hfloor, hle⟩
  · exact ⟨log.current, if_pos hzero⟩
  · by_cases hzero : revision = 0
    · exact ⟨log.current, if_pos hzero⟩
    · exact ⟨revision, by rw [if_neg hzero, if_neg (Int.not_lt.2 hle),
        if_neg (Int.not_lt.2 hfloor)]⟩

/-- The live states that a pattern of a text selects are what reads of the names that pass
answer. -/
theorem Tidy.mem_standing_ofPrefix (h : log.Tidy) {start : String} {revision at' : Int}
    (hresolve : Store.resolve log revision = .ok at') {e : Entry} :
    e ∈ log.standing (Pattern.ofPrefix start) at' ↔
      Store.get log e.name revision = .ok (some e) ∧ Pattern.Passes start.toList e.name.toList := by
  rw [mem_standing, Pattern.selects_ofPrefix, h.get_eq e.name hresolve, ← liveAt?, Except.ok.injEq]

/-- **What a list selects.** In every state that a run reaches, at every revision that can be read,
a list has an entry of a name exactly where a read of the name finds one and the name passes for one
that begins with the text. It has no name twice, and a count is the number of its entries. Only a
pattern that is too long is refused, if there is any row to match it against. -/
theorem Start.list_selects (h : log.Start) (ops : List Op) (start : String)
    {revision watermark current : Int}
    (hwatermark : Store.compactedTo (log.play ops) = .ok watermark)
    (hcurrent : Store.currentRevision (log.play ops) = .ok current)
    (hreadable : revision = 0 ∨ watermark ≤ revision ∧ revision ≤ current) :
    if Pattern.sizeLimit < (Pattern.ofPrefix start).utf8ByteSize ∧ (log.play ops).rows ≠ [] then
      Store.list (log.play ops) start 0 revision = .error (.ofFault .longPattern) ∧
        Store.count (log.play ops) start revision = .error (.ofFault .longPattern)
    else
      ∃ es, Store.list (log.play ops) start 0 revision = .ok es ∧
        Store.count (log.play ops) start revision = .ok (current, es.length) ∧
        (es.map Entry.name).Nodup ∧
          ∀ e, e ∈ es ↔ Store.get (log.play ops) e.name revision = .ok (some e) ∧
            Pattern.Passes start.toList e.name.toList := by
  have hintact := h.intact.play ops
  have htidy := hintact.toTidy
  obtain rfl : current = (log.play ops).current :=
    Except.ok.inj (hcurrent.symm.trans htidy.store_currentRevision)
  obtain ⟨at', hresolve⟩ := htidy.exists_resolve hwatermark hcurrent hreadable
  have hlist := htidy.list_eq start 0 hresolve
  have hcount := htidy.count_eq start hresolve
  rw [if_neg (by decide)] at hlist
  simp only [← hintact.overlong_iff _ at']
  split
  · next hlong =>
    rw [if_pos hlong] at hlist hcount
    exact ⟨hlist, hcount⟩
  · next hshort =>
    rw [if_neg hshort] at hlist hcount
    rw [first, if_pos rfl] at hlist
    have hperm : (byNames ((log.play ops).standing (Pattern.ofPrefix start) at')).Perm _ :=
      List.mergeSort_perm _ _
    refine ⟨_, hlist, by rw [hcount, hperm.length_eq], ?_, fun e => ?_⟩
    · refine (hperm.map _).nodup_iff.2 ?_
      exact List.pairwise_map.2 ((log.play ops).name_ne_of_standing _ at')
    · rw [hperm.mem_iff, htidy.mem_standing_ofPrefix hresolve]

/-- Of four keys the list takes the two that begin with `a_` up to the case of the letter, and the
underscore stands for itself. A revision in the past is read, behind which one of the two is
deleted. -/
theorem Start.exists_list_selects : ∃ (log : Log) (ops : List Op), log.Start ∧
    ops =
      [.create "gone" [] 0, .delete "gone" 1, .compact 2, .create "a_b" [1] 0, .create "axb" [2] 0,
        .create "A_c" [3] 0, .create "b" [4] 0, .delete "a_b" 3] ∧
    Store.compactedTo (log.play ops) = .ok 2 ∧ Store.currentRevision (log.play ops) = .ok 7 ∧
    ((5 : Int) = 0 ∨ (2 : Int) ≤ 5 ∧ (5 : Int) ≤ 7) ∧
    ∃ es, Store.list (log.play ops) "a_" 0 5 = .ok es ∧
      Store.count (log.play ops) "a_" 5 = .ok (7, es.length) ∧ (es.map Entry.name).Nodup ∧
        ∀ e, e ∈ es ↔ Store.get (log.play ops) e.name 5 = .ok (some e) ∧
          Pattern.Passes "a_".toList e.name.toList := by
  let ops : List Op :=
    [.create "gone" [] 0, .delete "gone" 1, .compact 2, .create "a_b" [1] 0, .create "axb" [2] 0,
      .create "A_c" [3] 0, .create "b" [4] 0, .delete "a_b" 3]
  have hwatermark : Store.compactedTo (play { indexing := .linkFirst } ops) = .ok 2 := by
    decide +kernel
  have hcurrent : Store.currentRevision (play { indexing := .linkFirst } ops) = .ok 7 := by
    decide +kernel
  have hreadable : (5 : Int) = 0 ∨ (2 : Int) ≤ 5 ∧ (5 : Int) ≤ 7 := by decide
  have hselects := Start.empty.list_selects ops "a_" hwatermark hcurrent hreadable
  rw [if_neg fun hlong => absurd hlong.1 (by decide)] at hselects
  exact ⟨_, ops, .empty, rfl, hwatermark, hcurrent, hreadable, hselects⟩

/-- A list of the names that begin with a small letter has one that begins with a capital. No key
begins with the small letter, and a read of the letter finds nothing. -/
theorem exists_list_otherCase : ∃ (log : Log) (e : Entry), log =
    play { indexing := .linkFirst } [.create "A" [] 0] ∧
    Store.list log "a" 0 0 = .ok [e] ∧ Store.count log "a" 0 = .ok (1, 1) ∧ e.name = "A" ∧
    ¬"a".toList <+: e.name.toList ∧ Store.get log "a" 0 = .ok none := by
  let log := play { indexing := .linkFirst } [.create "A" [] 0]
  let e : Entry :=
    { revision := 1, name := "A", created := true,
      deleted := false, createRevision := 1, prevRevision := 0, lease := 0
      value := [], oldValue := [] }
  have htidy : log.Tidy := (Start.empty.intact.play [.create "A" [] 0]).toTidy
  have hresolve : Store.resolve log 0 = .ok 1 := by decide +kernel
  have hstanding : log.standing (Pattern.ofPrefix "a") 1 = [e] := by decide +kernel
  have hshort : ¬log.Overlong (Pattern.ofPrefix "a") 1 := fun hlong => absurd hlong.1 (by decide)
  have hlist := htidy.list_eq "a" 0 hresolve
  rw [if_neg (by decide), if_neg hshort, first, if_pos rfl, hstanding, byNames,
    List.mergeSort_singleton] at hlist
  exact ⟨log, e, rfl, hlist, by decide +kernel, rfl, by decide, by decide +kernel⟩

end Log

end RevisionLog
