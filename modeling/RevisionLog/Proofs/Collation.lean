import RevisionLog.Proofs.Migrated

/-!
# Names that a collation takes for one

An older table can compare names without regard to case or to blanks at the end. Its rows are then
read in an order in which those of two names can take turns, while the replay remembers only the
name that it wrote last. A row that comes back to a name that was left finds nothing of it: a live
row starts the name anew and is refused, and a deletion is passed over.

* `Legacy.Unbroken` — no row that would make a state comes back to a name that was left.
* `Legacy.replay` — what the replay makes of rows in any order.
* `Legacy.UnbrokenFrom.replay_eq`, `Legacy.exists_live_of_broken` — where it tells all rows again,
  and where it does not.
* `Legacy.Readable.content_states` — what the states of one name say does not depend on the order.
* `Legacy.Readable.unbroken` — an order that takes no two names for one another leaves none too
  early.
-/

namespace RevisionLog

namespace Legacy

/-! ## The order of rows -/

/-- The rows of a name, in the order in which they are read. -/
def rowsOf (legacy : Legacy) (name : String) : List LegacyRow :=
  legacy.sorted.filter (·.name = .text name)

/-- The same table, with names compared byte by byte. -/
def bytewise (legacy : Legacy) : Legacy := { legacy with collation := .bytes }

/-- A name is never before itself. -/
theorem orderNames_self (collation : Collation) (s : String) :
    orderNames collation (.text s) (.text s) = .eq := by
  have hself : orderKeysOf collation (s, 0) (s, 0) = .eq := Std.ReflCmp.compare_self
  rw [orderKeysOf_eq] at hself
  exact (Ordering.then_eq_eq.1 hself).1

/-- Names that are each at or below the other are the same to the order. -/
theorem orderNames_antisymm {collation : Collation} {s t : String}
    (hst : (orderNames collation (.text s) (.text t)).isLE)
    (hts : (orderNames collation (.text t) (.text s)).isLE) :
    orderNames collation (.text s) (.text t) = .eq := by
  have hkeys : ∀ s t : String, (orderNames collation (.text s) (.text t)).isLE →
      (orderKeysOf collation (s, 0) (t, 0)).isLE := by
    intro s t hle
    rw [orderKeysOf_eq]
    rcases horder : orderNames collation (.text s) (.text t) with _ | _ | _ <;> rw [horder] at hle
    · rfl
    · rfl
    · cases hle
  have heq : orderKeysOf collation (s, 0) (t, 0) = .eq :=
    Std.OrientedCmp.isLE_antisymm (hkeys s t hst) (hkeys t s hts)
  rw [orderKeysOf_eq] at heq
  exact (Ordering.then_eq_eq.1 heq).1

namespace Readable

variable {legacy : Legacy}

theorem bytewise (h : legacy.Readable) : legacy.bytewise.Regular := ⟨h.rows, h.ids, h.complete, rfl⟩

/-- The rows are in the order of names, and those of one name in the order of ids. -/
theorem pairwise_sorted (h : legacy.Readable) :
    legacy.sorted.Pairwise fun r s =>
      (orderNames legacy.collation (.text r.name.toText) (.text s.name.toText)).isLE ∧
        (r.name.toText = s.name.toText → r.id < s.id) := by
  have hkeys := List.pairwise_map.1 (pairwise_sorted_of fun r hr => (h.rows r hr).name)
  have hids : legacy.sorted.Pairwise fun r s => r.id ≠ s.id := by
    rw [← List.pairwise_map (f := LegacyRow.id) (R := (· ≠ ·))]
    exact (legacy.perm_sorted.map LegacyRow.id).nodup_iff.2 h.ids
  refine (hkeys.and hids).imp ?_
  rintro r s ⟨hle, hne⟩
  rw [orderKeysOf_eq] at hle
  refine ⟨Ordering.isLE_left_of_isLE_then hle, ?_⟩
  intro hname
  have hsame : orderNames legacy.collation (.text (key r).1) (.text (key s).1) = .eq := by
    show orderNames legacy.collation (.text r.name.toText) (.text s.name.toText) = .eq
    rw [hname, orderNames_self]
  rw [hsame] at hle
  have hid : (compare r.id s.id).isLE := hle
  rw [Int.isLE_compare] at hid
  omega

/-- **The rows of a name** are read in the order of ids. -/
theorem pairwise_rowsOf (h : legacy.Readable) (name : String) :
    (legacy.rowsOf name).Pairwise (·.id < ·.id) := by
  refine (List.Pairwise.filter _ h.pairwise_sorted).imp_of_mem ?_
  intro r s hr hs hrs
  have hname : ∀ t ∈ legacy.sorted.filter (·.name = .text name), t.name.toText = name := by
    intro t ht
    rw [of_decide_eq_true (List.mem_filter.1 ht).2, Cell.toText]
  exact hrs.2 ((hname r hr).trans (hname s hs).symm)

/-- Whatever the collation, the rows of one name come in the same order. -/
theorem rowsOf_eq (h : legacy.Readable) (name : String) :
    legacy.rowsOf name = legacy.bytewise.rowsOf name := by
  have hperm : (legacy.rowsOf name).Perm (legacy.bytewise.rowsOf name) :=
    (legacy.perm_sorted.trans legacy.bytewise.perm_sorted.symm).filter _
  refine hperm.eq_of_pairwise ?_ (h.pairwise_rowsOf name) (h.bytewise.readable.pairwise_rowsOf name)
  intro r s _ _ hrs hsr
  omega

end Readable

/-! ## Names that are left -/

/-- A row comes back to a name that was left: the name has states, and the last state of all is of
another name. -/
def Returns (told : List Entry) (e : LegacyEntry) : Prop :=
  (∃ p ∈ told, p.name = e.name) ∧ ∀ p ∈ told.getLast?, p.name ≠ e.name

instance : DecidableRel Returns := fun _ _ => inferInstanceAs (Decidable (_ ∧ _))

/-- No row that would make a state comes back to a name that was left. -/
def UnbrokenFrom : List Entry → List LegacyEntry → Prop
  | _, [] => True
  | told, e :: rest => (Returns told e → retell told e = told) ∧ UnbrokenFrom (retell told e) rest

/-- No row of a table that would make a state comes back to a name that was left. -/
def Unbroken (legacy : Legacy) : Prop := UnbrokenFrom [] (legacy.sorted.map LegacyRow.toEntry)

/-- What the replay makes of rows, unless it is refused. A row that comes back to a name that was
left is passed over if it deletes the name, and refused if it does not. -/
def replay : List Entry → List LegacyEntry → Option (List Entry)
  | told, [] => some told
  | told, e :: rest =>
    if Returns told e then if e.deleted then replay told rest else none
    else replay (retell told e) rest

variable {told all : List Entry} {e : LegacyEntry} {es : List LegacyEntry} {name : String}

/-- A row leaves a state of its name, or nothing at all. -/
theorem retell_eq_or (told : List Entry) (e : LegacyEntry) :
    retell told e = told ∨ ∃ p : Entry, p.name = e.name ∧ retell told e = told ++ [p] := by
  unfold retell
  dsimp only
  split
  · exact Or.inr ⟨_, rfl, rfl⟩
  · exact Or.inr ⟨_, rfl, rfl⟩
  · exact Or.inr ⟨_, rfl, rfl⟩
  · exact Or.inl rfl

/-- A row that does not delete its name leaves a state. -/
theorem retell_ne_of_live (hlive : e.deleted = false) : retell told e ≠ told := by
  unfold retell
  dsimp only
  split
  · simp
  · next hdeleted => rw [hlive] at hdeleted; cases hdeleted
  · simp
  · next hdeleted => rw [hlive] at hdeleted; cases hdeleted

/-- A deletion that leaves a state is one of a live name. -/
theorem valueOf?_ne_none_of_retell_ne (hdeleted : e.deleted = true) (hne : retell told e ≠ told) :
    valueOf? told e.name ≠ none := by
  intro hdead
  rw [valueOf?, Option.map_eq_none_iff] at hdead
  refine hne ?_
  unfold retell
  dsimp only
  rw [hdead, hdeleted]

/-- **Where names are not left too early, the replay tells all rows again.** -/
theorem UnbrokenFrom.replay_eq (h : UnbrokenFrom told es) :
    replay told es = some (es.foldl retell told) := by
  induction es generalizing told with
  | nil => rfl
  | cons e es ih =>
    obtain ⟨hkept, hrest⟩ := h
    rw [replay, List.foldl_cons]
    split
    · next hreturns =>
      have hsame := hkept hreturns
      have hdeleted : e.deleted = true := by
        by_contra hlive
        exact retell_ne_of_live (eq_false_of_ne_true hlive) hsame
      rw [hsame] at hrest ⊢
      rw [if_pos hdeleted]
      exact ih hrest
    · exact ih hrest

/-- To a name that was left no row is ever told again. -/
theorem valueOf?_of_left (hmem : ∃ p ∈ told, p.name = name)
    (hlast : ∀ p ∈ told.getLast?, p.name ≠ name) (hall : replay told es = some all) :
    (∀ f ∈ es, f.name = name → f.deleted = true) ∧ valueOf? all name = valueOf? told name := by
  induction es generalizing told with
  | nil =>
    obtain rfl := Option.some.inj hall
    exact ⟨fun f hf => (by cases hf), rfl⟩
  | cons e es ih =>
    rw [replay] at hall
    have hcons : ∀ {P : LegacyEntry → Prop}, P e → (∀ f ∈ es, P f) → ∀ f ∈ e :: es, P f := by
      intro P he hes f hf
      rcases List.mem_cons.1 hf with rfl | hf
      · exact he
      · exact hes f hf
    split at hall
    · split at hall
      · next hdeleted =>
        obtain ⟨hrest, hvalue⟩ := ih hmem hlast hall
        exact ⟨hcons (fun _ => hdeleted) hrest, hvalue⟩
      · cases hall
    · next hreturns =>
      have hother : e.name ≠ name := by
        rintro rfl
        exact hreturns ⟨hmem, hlast⟩
      have hleft : (∃ p ∈ retell told e, p.name = name) ∧ ∀ p ∈ (retell told e).getLast?,
          p.name ≠ name := by
        rcases retell_eq_or told e with hsame | ⟨p, hname, hnew⟩
        · rw [hsame]
          exact ⟨hmem, hlast⟩
        · obtain ⟨q, hq, hqname⟩ := hmem
          rw [hnew, List.getLast?_concat]
          refine ⟨⟨q, List.mem_append_left _ hq, hqname⟩, ?_⟩
          intro p' hp'
          obtain rfl := Option.some.inj hp'
          rw [hname]
          exact hother
      obtain ⟨hrest, hvalue⟩ := ih hleft.1 hleft.2 hall
      rw [valueOf?_retell, if_neg hother] at hvalue
      exact ⟨hcons (fun hname => absurd hname hother) hrest, hvalue⟩

/-- **Where a name is left too early**, the replay is refused, or a name is live in the end although
its last row deletes it. -/
theorem exists_live_of_broken (h : ¬UnbrokenFrom told es) (hall : replay told es = some all) :
    ∃ name f, (es.filter (·.name = name)).getLast? = some f ∧ f.deleted = true ∧
      valueOf? all name ≠ none := by
  induction es generalizing told with
  | nil => exact absurd trivial h
  | cons e es ih =>
    by_cases hbreak : Returns told e ∧ retell told e ≠ told
    · obtain ⟨hreturns, hne⟩ := hbreak
      rw [replay, if_pos hreturns] at hall
      split at hall
      · next hdeleted =>
        -- the deletion is lost, and so are all later ones
        obtain ⟨hrest, hvalue⟩ := valueOf?_of_left hreturns.1 hreturns.2 hall
        have hne' : (e :: es).filter (·.name = e.name) ≠ [] := by simp
        refine ⟨e.name, _, List.getLast?_eq_some_getLast hne', ?_, ?_⟩
        · have hmem := List.mem_filter.1 (List.getLast_mem hne')
          rcases List.mem_cons.1 hmem.1 with heq | htail
          · rw [heq]
            exact hdeleted
          · exact hrest _ htail (of_decide_eq_true hmem.2)
        · rw [hvalue]
          exact valueOf?_ne_none_of_retell_ne hdeleted hne
      · cases hall
    · have hkept : Returns told e → retell told e = told := fun hreturns => by
        by_contra hne
        exact hbreak ⟨hreturns, hne⟩
      have hrest : replay (retell told e) es = some all := by
        rw [replay] at hall
        split at hall
        · next hreturns =>
          split at hall
          · rw [hkept hreturns]
            exact hall
          · cases hall
        · exact hall
      obtain ⟨name, f, hlast, hdeleted, hvalue⟩ := ih (fun hunbroken => h ⟨hkept, hunbroken⟩) hrest
      refine ⟨name, f, ?_, hdeleted, hvalue⟩
      rw [List.filter_cons]
      split
      · rw [List.getLast?_cons, hlast]
        rfl
      · exact hlast

/-! ## What the states of a name say -/

/-- What a state says, apart from where it stands. -/
def content (p : Entry) : Bool × Bool × Int × Octets × Octets :=
  (p.created, p.deleted, p.lease, p.value, p.oldValue)

/-- A row leaves the states of other names as they are. -/
theorem filter_retell_of_ne (hname : e.name ≠ name) (told : List Entry) :
    (retell told e).filter (·.name = name) = told.filter (·.name = name) := by
  rcases retell_eq_or told e with hsame | ⟨p, hp, hnew⟩
  · rw [hsame]
  · rw [hnew, List.filter_append, List.filter_cons_of_neg (by simpa [hp] using hname),
      List.filter_nil, List.append_nil]

/-- What a row adds to the states of its name depends on what these say, and on nothing else. -/
theorem content_retell {alone : List Entry}
    (h : (told.filter (·.name = e.name)).map content =
      (alone.filter (·.name = e.name)).map content) :
    ((retell told e).filter (·.name = e.name)).map content =
      ((retell alone e).filter (·.name = e.name)).map content := by
  have hlast := congrArg List.getLast? h
  rw [List.getLast?_map, List.getLast?_map] at hlast
  unfold retell
  dsimp only
  generalize (told.filter (·.name = e.name)).getLast? = p at hlast ⊢
  generalize (alone.filter (·.name = e.name)).getLast? = q at hlast ⊢
  have hlive : (p.filter fun p => !p.deleted).map content =
      (q.filter fun q => !q.deleted).map content := by
    rcases p with _ | p <;> rcases q with _ | q
    · rfl
    · cases hlast
    · cases hlast
    · have heq := Option.some.inj hlast
      have hdeleted : p.deleted = q.deleted := congrArg (·.2.1) heq
      cases hq : q.deleted <;> simp [Option.filter, hdeleted, hq, heq]
  generalize p.filter (fun p => !p.deleted) = a at hlive ⊢
  generalize q.filter (fun q => !q.deleted) = b at hlive ⊢
  rcases a with _ | a <;> rcases b with _ | b
  · cases e.deleted <;> simp [content, h]
  · cases hlive
  · cases hlive
  · have hvalue : a.value = b.value := congrArg (·.2.2.2.1) (Option.some.inj hlive)
    cases e.deleted <;> simp [content, h, hvalue]

/-- **What the states of a name say** comes from the rows of the name, in their order. -/
theorem content_foldl (es : List LegacyEntry) {alone : List Entry}
    (h : (told.filter (·.name = name)).map content = (alone.filter (·.name = name)).map content) :
    ((es.foldl retell told).filter (·.name = name)).map content =
      (((es.filter (·.name = name)).foldl retell alone).filter (·.name = name)).map content := by
  induction es generalizing told alone with
  | nil => exact h
  | cons e es ih =>
    rw [List.foldl_cons, List.filter_cons]
    split
    · next hname =>
      obtain rfl := of_decide_eq_true hname
      exact ih (content_retell h)
    · next hname =>
      refine ih ?_
      rw [filter_retell_of_ne (by simpa using hname)]
      exact h

/-- Whatever the collation, the states of one name say the same. -/
theorem Readable.content_states {legacy : Legacy} (h : legacy.Readable) (name : String) :
    (legacy.states.filter (·.name = name)).map content =
      (legacy.bytewise.states.filter (·.name = name)).map content := by
  have hrows : (legacy.sorted.map LegacyRow.toEntry).filter (·.name = name) =
      (legacy.bytewise.sorted.map LegacyRow.toEntry).filter (·.name = name) := by
    rw [h.filter_map_toEntry, h.bytewise.readable.filter_map_toEntry]
    exact congrArg (List.map LegacyRow.toEntry) (h.rowsOf_eq name)
  have hcount : ∀ es : List LegacyEntry, ((es.foldl retell []).filter (·.name = name)).map content =
      (((es.filter (·.name = name)).foldl retell []).filter (·.name = name)).map content :=
    fun es => content_foldl es rfl
  rw [states, states, hcount, hrows, ← hcount]

/-! ## Orders that keep names apart -/

/-- Rows in an order that keeps different names apart never come back to a name. -/
theorem unbrokenFrom_of_pairwise (le : String → String → Prop)
    (hsorted : (told.map Entry.name ++ es.map LegacyEntry.name).Pairwise le)
    (hapart : ∀ s ∈ told.map Entry.name ++ es.map LegacyEntry.name,
      ∀ t ∈ told.map Entry.name ++ es.map LegacyEntry.name,
      le s t → le t s → s = t) : UnbrokenFrom told es := by
  induction es generalizing told with
  | nil => trivial
  | cons e es ih =>
    have hreturns : ¬Returns told e := by
      rintro ⟨⟨p, hp, hname⟩, hlast⟩
      have hne : told ≠ [] := List.ne_nil_of_mem hp
      have hsplit := List.dropLast_concat_getLast hne
      have hother := hlast _ (List.getLast?_eq_some_getLast hne)
      rw [← hsplit] at hp
      rcases List.mem_append.1 hp with hfront | hend
      · -- the name stands before the last one, and after it
        have hbefore : le p.name (told.getLast hne).name := by
          have hfirst := (List.pairwise_append.1 hsorted).1
          rw [← hsplit, List.map_append, List.pairwise_append] at hfirst
          exact hfirst.2.2 _ (List.mem_map_of_mem hfront) _ (List.mem_singleton_self _)
        have hafter : le (told.getLast hne).name e.name :=
          (List.pairwise_append.1 hsorted).2.2 _ (List.mem_map_of_mem (List.getLast_mem hne)) _
            List.mem_cons_self
        have hlastmem :
            (told.getLast hne).name ∈ told.map Entry.name ++ (e :: es).map LegacyEntry.name :=
          List.mem_append_left _ (List.mem_map_of_mem (List.getLast_mem hne))
        have hmem : e.name ∈ told.map Entry.name ++ (e :: es).map LegacyEntry.name :=
          List.mem_append_right _ List.mem_cons_self
        rw [hname] at hbefore
        exact hother (hapart _ hlastmem _ hmem hafter hbefore)
      · exact hother ((congrArg Entry.name (List.mem_singleton.1 hend)).symm.trans hname)
    refine ⟨fun hyes => absurd hyes hreturns, ?_⟩
    rcases retell_eq_or told e with hsame | ⟨p, hname, hnew⟩
    · have hsub : (told.map Entry.name ++ es.map LegacyEntry.name).Sublist
          (told.map Entry.name ++ (e :: es).map LegacyEntry.name) :=
        (List.Sublist.refl _).append (List.sublist_cons_self _ _)
      rw [hsame]
      exact ih (hsorted.sublist hsub) fun s hs t ht => hapart s (hsub.subset hs) t (hsub.subset ht)
    · have hlist : (told ++ [p]).map Entry.name ++ es.map LegacyEntry.name =
          told.map Entry.name ++ (e :: es).map LegacyEntry.name := by simp [hname]
      rw [hnew]
      refine ih ?_ ?_ <;> rw [hlist]
      · exact hsorted
      · exact hapart

/-- **Where the order takes no two names of a table for one another**, as where it compares bytes,
no name is left too early. -/
theorem Readable.unbroken {legacy : Legacy} (h : legacy.Readable)
    (hapart : ∀ r ∈ legacy.rows, ∀ s ∈ legacy.rows,
      orderNames legacy.collation r.name s.name = .eq → r.name = s.name) :
    legacy.Unbroken := by
  have hnames : (legacy.sorted.map LegacyRow.toEntry).map LegacyEntry.name =
      legacy.sorted.map (·.name.toText) := by
    rw [List.map_map]
    rfl
  refine unbrokenFrom_of_pairwise
    (fun s t => (orderNames legacy.collation (.text s) (.text t)).isLE) ?_ ?_ <;>
    rw [List.map_nil, List.nil_append, hnames]
  · exact List.pairwise_map.2 (h.pairwise_sorted.imp fun hrs => hrs.1)
  · intro s hs t ht hst hts
    obtain ⟨r, hr, rfl⟩ := List.mem_map.1 hs
    obtain ⟨q, hq, rfl⟩ := List.mem_map.1 ht
    obtain ⟨a, ha⟩ := (h.rows r (List.mem_mergeSort.1 hr)).name
    obtain ⟨b, hb⟩ := (h.rows q (List.mem_mergeSort.1 hq)).name
    have heq := hapart r (List.mem_mergeSort.1 hr) q (List.mem_mergeSort.1 hq)
    simp only [ha, hb, Cell.toText] at heq hst hts ⊢
    exact Cell.text.inj (heq (orderNames_antisymm hst hts))

/-- Bytes keep all names apart. -/
theorem Regular.unbroken {legacy : Legacy} (h : legacy.Regular) : legacy.Unbroken := by
  refine h.readable.unbroken ?_
  intro r hr s hs heq
  obtain ⟨a, ha⟩ := (h.rows r hr).name
  obtain ⟨b, hb⟩ := (h.rows s hs).name
  rw [h.bytes, ha, hb] at heq
  rw [ha, hb]
  exact congrArg Cell.text (Cell.orderText_eq_eq.1 heq)

end Legacy

end RevisionLog
