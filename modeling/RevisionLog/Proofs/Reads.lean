import RevisionLog.Proofs.Replay
import RevisionLog.Proofs.Selection

/-!
# Reads that agree

A log is read in three ways: the state of one name, the states of all names that a pattern selects,
and their number. The first looks for the last row of the name, the other two group the rows by
names; the answers tell of the same states. A list is in order of names, which are compared by the
numbers of their characters, and this is the order of their bytes.

* `Cell.orderText_eq_lt` — texts are in the order of their bytes.
* `Log.pairwise_byNames` — a list with no name twice is strictly in this order.
* `Log.Start.list_limited` — a limit takes the first entries of a list, unless it is no number to
  the engine.
* `Log.Start.reads_agree` — reads of single names, lists and counts agree, in refusals too.
-/

namespace RevisionLog

/-! ## The order of bytes -/

namespace Text

theorem toList_loop_eq (bytes : ByteArray) (i : Nat) (read : Octets) :
    ByteArray.toList.loop bytes i read = read.reverse ++ bytes.data.toList.drop i := by
  fun_induction ByteArray.toList.loop bytes i read with
  | case1 i read hlt ih =>
    have hi : i < bytes.data.toList.length := by simpa using hlt
    rw [ih, List.drop_eq_getElem_cons hi]
    simp [ByteArray.get!, hlt]
  | case2 i read hge =>
    rw [List.drop_eq_nil_of_le (by simpa using Nat.le_of_not_lt hge)]
    simp

/-- The bytes of a text are those of its characters, one after the other. -/
theorem octets_eq_flatMap (s : String) : octets s = s.toList.flatMap String.utf8EncodeChar := by
  have hbytes : s.toByteArray = (s.toList.flatMap String.utf8EncodeChar).toByteArray := by
    conv => lhs; rw [← String.ofList_toList (s := s)]
    rfl
  rw [octets, String.toUTF8_eq_toByteArray, hbytes, ByteArray.toList, toList_loop_eq]
  simp

/-- Whatever follows, the bytes of a character come before those of one with a greater number. A
longer encoding begins with a greater byte, and in encodings of one length the numbers are written
digit by digit. -/
theorem encode_append_lt {c d : Char} (hlt : c.toNat < d.toNat) (cs ds : Octets) :
    String.utf8EncodeChar c ++ cs < String.utf8EncodeChar d ++ ds := by
  have hvalid : d.val.toNat < 0x110000 := by
    have := d.valid
    simp only [UInt32.isValidChar, Nat.isValidChar] at this
    omega
  have hdigits : ∀ n : Nat, n / 4096 = n / 64 / 64 ∧ n / 262144 = n / 64 / 64 / 64 := by omega
  unfold Char.toNat at hlt
  unfold String.utf8EncodeChar
  simp only [hdigits]
  generalize c.val.toNat = m at *
  generalize d.val.toNat = n at *
  -- one case for each pair of lengths, in which the bytes are compared one by one
  split_ifs <;>
    simp only [List.cons_append, List.nil_append, List.cons_lt_cons_iff, UInt8.lt_iff_toNat_lt,
      ← UInt8.toNat_inj, UInt8.toNat_ofNat'] <;>
    omega

end Text

namespace Cell

/-- Characters in the order of their numbers are in the order of their bytes. -/
theorem flatMap_encode_lt {cs ds : List Char}
    (hlt : orderBy (cs.map Char.toNat) (ds.map Char.toNat) = .lt) :
    cs.flatMap String.utf8EncodeChar < ds.flatMap String.utf8EncodeChar := by
  induction cs generalizing ds with
  | nil =>
    cases ds with
    | nil => cases hlt
    | cons d ds =>
      obtain ⟨b, bs, hbytes⟩ := List.exists_cons_of_ne_nil (String.utf8EncodeChar_ne_nil (c := d))
      rw [List.flatMap_nil, List.flatMap_cons, hbytes]
      exact List.nil_lt_cons _ _
  | cons c cs ih =>
    cases ds with
    | nil => cases hlt
    | cons d ds =>
      rw [List.map_cons, List.map_cons, orderBy, Ordering.then_eq_lt, Nat.compare_eq_lt,
        Nat.compare_eq_eq] at hlt
      rw [List.flatMap_cons, List.flatMap_cons]
      rcases hlt with hlt | ⟨heq, hlt⟩
      · exact Text.encode_append_lt hlt _ _
      · rw [Char.toNat_inj.1 heq]
        exact List.append_left_lt (ih hlt)

theorem octets_lt_of_orderText {s t : String} (hlt : orderText s t = .lt) :
    Text.octets s < Text.octets t := by
  rw [Text.octets_eq_flatMap, Text.octets_eq_flatMap]
  exact flatMap_encode_lt hlt

/-- **Texts are in the order of their bytes.** -/
theorem orderText_eq_lt {s t : String} : orderText s t = .lt ↔ Text.octets s < Text.octets t := by
  refine ⟨octets_lt_of_orderText, fun hlt => ?_⟩
  rcases horder : orderText s t with _ | _ | _
  case lt => rfl
  case eq =>
    rw [orderText_eq_eq.1 horder] at hlt
    exact absurd hlt (List.lt_irrefl _)
  case gt =>
    rw [orderText_eq_compareOn] at horder
    have hback : orderText t s = .lt := by
      rw [orderText_eq_compareOn]
      exact Std.OrientedCmp.lt_of_gt horder
    exact absurd (octets_lt_of_orderText hback) (List.lt_asymm hlt)

end Cell

/-! ## Lists in order of names -/

namespace Log

variable {log : Log} {revision at' : Int}

/-- **A list with no name twice is strictly in order of names**, as bytes. -/
theorem pairwise_byNames {es : List Entry} (hnames : es.Pairwise (·.name ≠ ·.name)) :
    (byNames es).Pairwise fun e f => Text.octets e.name < Text.octets f.name := by
  have hdistinct : (byNames es).Pairwise (·.name ≠ ·.name) :=
    (List.mergeSort_perm _ _).symm.pairwise hnames fun hne => hne.symm
  have hsorted : (byNames es).Pairwise fun e f => (Cell.orderText e.name f.name).isLE := by
    simp only [byNames, ne_eq, ← Ordering.isLE_iff_ne_gt, Bool.decide_eq_true,
      Cell.orderText_eq_compareOn]
    refine List.pairwise_mergeSort ?_ ?_ es
    · intro e f g hef hfg
      exact Std.TransCmp.isLE_trans hef hfg
    · intro e f
      have hswap : compareOn Cell.codes e.name f.name = _ := Std.OrientedCmp.eq_swap
      rw [hswap]
      cases compareOn Cell.codes f.name e.name <;> rfl
  -- the sort allows equal names, but there are none
  refine hsorted.imp₂ (fun e f hle hne => ?_) hdistinct
  rcases Ordering.isLE_iff_eq_lt_or_eq_eq.1 hle with hlt | heq
  · exact Cell.orderText_eq_lt.1 hlt
  · exact absurd (Cell.orderText_eq_eq.1 heq) hne

/-- Lists in order of names are the same if they have the same elements. -/
theorem eq_of_mem_iff_of_names {es fs : List Entry}
    (hes : es.Pairwise fun e f => Text.octets e.name < Text.octets f.name)
    (hfs : fs.Pairwise fun e f => Text.octets e.name < Text.octets f.name)
    (hmem : ∀ e, e ∈ es ↔ e ∈ fs) :
    es = fs := by
  have : Std.Irrefl fun e f : Entry => Text.octets e.name < Text.octets f.name :=
    ⟨fun e => List.lt_irrefl _⟩
  have : Std.Antisymm fun e f : Entry => Text.octets e.name < Text.octets f.name :=
    ⟨fun e f hef hfe => absurd hfe (List.lt_asymm hef)⟩
  exact hes.eq_of_mem_iff hfs hmem

/-- Entries in order of names are the list of any entries that they are. -/
theorem byNames_eq {es fs : List Entry}
    (hsorted : es.Pairwise fun e f => Cell.orderText e.name f.name = .lt) (hperm : fs.Perm es) :
    byNames fs = es := by
  have hes : es.Pairwise fun e f => Text.octets e.name < Text.octets f.name :=
    hsorted.imp Cell.orderText_eq_lt.1
  have hdistinct : es.Pairwise (·.name ≠ ·.name) := by
    refine hes.imp fun hlt heq => ?_
    rw [heq] at hlt
    exact List.lt_irrefl _ hlt
  have hfs : fs.Pairwise (·.name ≠ ·.name) := hperm.symm.pairwise hdistinct fun hne => hne.symm
  refine eq_of_mem_iff_of_names (pairwise_byNames hfs) hes fun e => ?_
  rw [byNames, List.mem_mergeSort, hperm.mem_iff]

/-- What a pattern selects of all names in order is what it selects, in order. -/
theorem byNames_standing (log : Log) (start : String) (revision : Int) :
    byNames (log.standing (Pattern.ofPrefix start) revision) =
      (byNames (log.standing (Pattern.ofPrefix "") revision)).filter fun e =>
        Pattern.selects (Pattern.ofPrefix start).toList e.name.toList := by
  refine eq_of_mem_iff_of_names (pairwise_byNames (log.name_ne_of_standing _ revision))
    ((pairwise_byNames (log.name_ne_of_standing _ revision)).filter _) ?_
  intro e
  rw [List.mem_filter, byNames, List.mem_mergeSort, byNames, List.mem_mergeSort, mem_standing,
    mem_standing]
  simp only [Pattern.selects_ofPrefix_empty, and_true]

/-! ## Limits -/

/-- **A limit takes the first entries of a list.** In every state that a run reaches: a list that is
answered is strictly in order of names, and with a limit it has the first ones of its entries, so
many or all. A limit beyond the greatest revision is refused. -/
theorem Start.list_limited (h : log.Start) (ops : List Op) {start : String} {es : List Entry}
    (hlist : Store.list (log.play ops) start 0 revision = .ok es) :
    (es.Pairwise fun e f => Text.octets e.name < Text.octets f.name) ∧
      ∀ limit : Nat, 0 < limit → Store.list (log.play ops) start limit revision =
        if (limit : Int) ≤ Revision.greatest then .ok (es.take limit)
            else .error (.ofFault .mismatch) := by
  have htidy := (h.intact.play ops).toTidy
  rcases hresolve : Store.resolve (log.play ops) revision with e | at'
  · rw [list_of_refused hresolve] at hlist
    cases hlist
  · rw [htidy.list_eq start 0 hresolve, if_neg (by decide)] at hlist
    split at hlist
    · cases hlist
    · next hshort =>
      rw [first, if_pos rfl, Except.ok.injEq] at hlist
      subst hlist
      refine ⟨pairwise_byNames ((log.play ops).name_ne_of_standing _ at'), fun limit hlimit => ?_⟩
      rw [htidy.list_eq start limit hresolve, if_neg hshort, first, if_neg (Nat.ne_of_gt hlimit)]
      exact (if_congr Int.not_le.symm rfl rfl).trans (ite_not _ _ _)

/-- Three keys that were written out of order are listed in order, all of them or the first two. -/
theorem Start.exists_list_limited : ∃ (log : Log) (ops : List Op) (es : List Entry), log.Start ∧
    ops = [.create "c" [] 0, .create "a" [] 0, .create "b" [] 0, .update "a" [1] 2 0] ∧
    Store.list (log.play ops) "" 0 0 = .ok es ∧ es.map Entry.name = ["a", "b", "c"] ∧
    (es.Pairwise fun e f => Text.octets e.name < Text.octets f.name) ∧
    ∀ limit : Nat, 0 < limit → Store.list (log.play ops) "" limit 0 =
      if (limit : Int) ≤ Revision.greatest then .ok (es.take limit)
      else .error (.ofFault .mismatch) := by
  let ops : List Op := [.create "c" [] 0, .create "a" [] 0, .create "b" [] 0, .update "a" [1] 2 0]
  let log := play { indexing := .linkFirst } ops
  let es : List Entry :=
    [{ revision := 4, name := "a", created := false,
       deleted := false, createRevision := 2, prevRevision := 2
       lease := 0, value := [1], oldValue := [] },
     { revision := 3, name := "b", created := true,
       deleted := false, createRevision := 3, prevRevision := 0
       lease := 0, value := [], oldValue := [] },
     { revision := 1, name := "c", created := true,
       deleted := false, createRevision := 1, prevRevision := 0
       lease := 0, value := [], oldValue := [] }]
  have htidy : log.Tidy := (Start.empty.intact.play ops).toTidy
  have hresolve : Store.resolve log 0 = .ok 4 := by decide +kernel
  have hperm : (log.standing (Pattern.ofPrefix "") 4).Perm es := by decide +kernel
  have hlist : Store.list log "" 0 0 = .ok _ := htidy.list_of_short hresolve (by decide)
  rw [byNames_eq (by decide +kernel) hperm] at hlist
  exact ⟨_, ops, es, .empty, rfl, hlist, rfl, Start.empty.list_limited ops hlist⟩

/-- A log with one key is listed, and with a limit above the greatest revision it is not. -/
theorem exists_limit_refused : ∃ (log : Log) (e : Entry) (limit : Nat),
    log = play { indexing := .linkFirst } [.create "a" [] 0] ∧ Store.list log "" 0 0 = .ok [e] ∧
    limit = 9223372036854775808 ∧ limit < 18446744073709551616 ∧ [e].take limit = [e] ∧
    Store.list log "" limit 0 = .error (.ofFault .mismatch) := by
  let log := play { indexing := .linkFirst } [.create "a" [] 0]
  let e : Entry :=
    { revision := 1, name := "a", created := true,
      deleted := false, createRevision := 1, prevRevision := 0, lease := 0
      value := [], oldValue := [] }
  have htidy : log.Tidy := (Start.empty.intact.play [.create "a" [] 0]).toTidy
  have hresolve : Store.resolve log 0 = .ok 1 := by decide +kernel
  have hstanding : log.standing (Pattern.ofPrefix "") 1 = [e] := by decide +kernel
  have hlist : Store.list log "" 0 0 = .ok _ := htidy.list_of_short hresolve (by decide)
  rw [hstanding, byNames, List.mergeSort_singleton] at hlist
  exact ⟨log, e, _, rfl, hlist, rfl, by decide,
    List.take_of_length_le (by decide), by decide +kernel⟩

/-! ## Reads of one revision -/

/-- Every read at a revision is refused for the same reason. -/
structure Refused (log : Log) (start : String) (revision : Int) (e : Error) : Prop where
  get : ∀ name, Store.get log name revision = .error e
  list : Store.list log start 0 revision = .error e
  count : Store.count log start revision = .error e

/-- Every read at a revision is answered, and the answers tell of the same states: `es` are those
under a pattern, and `all` those of all names. -/
structure Answered (log : Log) (start : String) (revision : Int) (es all : List Entry) : Prop where
  get : ∀ name, ∃ found, Store.get log name revision = .ok found
  list : Store.list log start 0 revision = .ok es
  whole : Store.list log "" 0 revision = .ok all
  count : ∃ current, Store.currentRevision log = .ok current ∧
    Store.count log start revision = .ok (current, es.length)
  /-- names strictly increase, as bytes -/
  ordered : es.Pairwise fun e f => Text.octets e.name < Text.octets f.name
  /-- a read of the name answers the same state -/
  each : ∀ e ∈ es, Store.get log e.name revision = .ok (some e)
  selected : es = all.filter fun e => Pattern.selects (Pattern.ofPrefix start).toList e.name.toList
  /-- no name that a read finds is left out -/
  every : ∀ name e, Store.get log name revision = .ok (some e) → e.name = name ∧ e ∈ all

theorem Tidy.refused (h : log.Tidy) {e : Error} (hresolve : Store.resolve log revision = .error e)
    (start : String) : log.Refused start revision e := by
  refine ⟨fun name => ?_, list_of_refused hresolve start 0, h.count_of_refused hresolve start⟩
  rw [Store.get, hresolve]
  rfl

/-- Where a revision can be read and the pattern is not too long, all reads are answered. -/
theorem Tidy.answered (h : log.Tidy) (hresolve : Store.resolve log revision = .ok at')
    {start : String} (hshort : (Pattern.ofPrefix start).utf8ByteSize ≤ Pattern.sizeLimit) :
    log.Answered start revision (byNames (log.standing (Pattern.ofPrefix start) at'))
      (byNames (log.standing (Pattern.ofPrefix "") at')) := by
  have hget : ∀ name, Store.get log name revision = .ok (log.liveAt? name at') :=
    fun name => h.get_eq name hresolve
  have hmem : ∀ {start e}, e ∈ byNames (log.standing (Pattern.ofPrefix start) at') ↔
      log.liveAt? e.name at' = some e ∧
      Pattern.selects (Pattern.ofPrefix start).toList e.name.toList = true := by
    intro start e
    rw [byNames, List.mem_mergeSort, mem_standing]
  refine
    { get := fun name => ⟨_, hget name⟩
      list := h.list_of_short hresolve hshort
      whole := h.list_of_short hresolve (by decide)
      count := ⟨_, h.store_currentRevision, ?_⟩
      ordered := pairwise_byNames (log.name_ne_of_standing _ at')
      each := fun e he => by rw [hget, (hmem.1 he).1]
      selected := log.byNames_standing start at'
      every := ?_ }
  · rw [h.count_eq start hresolve, if_neg fun hlong => Nat.not_lt.2 hshort hlong.1, byNames,
      List.length_mergeSort]
  · intro name e hfound
    rw [hget, Except.ok.injEq] at hfound
    have hname : e.name = name := (mem_chain.1 (liveAt?_eq_some.1 hfound).1).2.1
    subst hname
    exact ⟨rfl, hmem.2 ⟨hfound, Pattern.selects_ofPrefix_empty _⟩⟩

/-- **Reads agree.** In every state that a run reaches, at every revision and for every pattern that
is not too long: reads of single names, a list and a count are all refused for the same reason, a
revision above the current one or below the watermark, or they are all answered and tell of the same
states. -/
theorem Start.reads_agree (h : log.Start) (ops : List Op) (start : String) (revision : Int)
    (hshort : (Pattern.ofPrefix start).utf8ByteSize ≤ Pattern.sizeLimit) :
    ∃ watermark current, Store.compactedTo (log.play ops) = .ok watermark ∧
      Store.currentRevision (log.play ops) = .ok current ∧
      if revision ≠ 0 ∧ current < revision then
        (log.play ops).Refused start revision (.futureRevision revision current)
      else if revision ≠ 0 ∧ revision < watermark then
        (log.play ops).Refused start revision (.compacted revision watermark)
      else ∃ es all, (log.play ops).Answered start revision es all := by
  have htidy := (h.intact.play ops).toTidy
  have hresolve := htidy.resolve_eq revision
  refine ⟨_, _, htidy.store_compactedTo, htidy.store_currentRevision, ?_⟩
  by_cases hzero : revision = 0
  · rw [if_pos hzero] at hresolve
    rw [if_neg fun hfuture => hfuture.1 hzero, if_neg fun hpast => hpast.1 hzero]
    exact ⟨_, _, htidy.answered hresolve hshort⟩
  · rw [if_neg hzero] at hresolve
    simp only [ne_eq, hzero, not_false_iff, true_and]
    split
    · next hfuture =>
      rw [if_pos hfuture] at hresolve
      exact htidy.refused hresolve start
    · next hthere =>
      rw [if_neg hthere] at hresolve
      split
      · next hpast =>
        rw [if_pos hpast] at hresolve
        exact htidy.refused hresolve start
      · next hkept =>
        rw [if_neg hkept] at hresolve
        exact ⟨_, _, htidy.answered hresolve hshort⟩

/-- A log with a deleted key, a claimed id and history taken away is read in the past, where a key
is live that was deleted since. -/
theorem Start.exists_reads_agree : ∃ (log : Log) (ops : List Op), log.Start ∧
    ops =
      [.create "b" [] 0, .create "ab" [] 0, .create "aa" [] 0, .delete "b" 1, .fill 7 (by decide),
        .update "ab" [1] 2 0, .compact 4, .delete "aa" 3] ∧
    (Pattern.ofPrefix "a").utf8ByteSize ≤ Pattern.sizeLimit ∧
    Store.compactedTo (log.play ops) = .ok 4 ∧
    Store.currentRevision (log.play ops) = .ok 9 ∧
    ∃ es all, (log.play ops).Answered "a" 8 es all := by
  let ops : List Op :=
    [.create "b" [] 0, .create "ab" [] 0, .create "aa" [] 0, .delete "b" 1, .fill 7 (by decide),
      .update "ab" [1] 2 0, .compact 4, .delete "aa" 3]
  have hfour : Store.compactedTo (play { indexing := .linkFirst } ops) = .ok 4 := by decide +kernel
  have hnine : Store.currentRevision (play { indexing := .linkFirst } ops) = .ok 9 := by
    decide +kernel
  have hshort : (Pattern.ofPrefix "a").utf8ByteSize ≤ Pattern.sizeLimit := by decide
  obtain ⟨watermark, current, hwatermark, hcurrent, hreads⟩ :=
    Start.empty.reads_agree ops "a" 8 hshort
  obtain rfl : (4 : Int) = watermark := Except.ok.inj (hfour.symm.trans hwatermark)
  obtain rfl : (9 : Int) = current := Except.ok.inj (hnine.symm.trans hcurrent)
  rw [if_neg (by decide), if_neg (by decide)] at hreads
  exact ⟨_, ops, .empty, rfl, hshort, hfour, hnine, hreads⟩

end Log

end RevisionLog
