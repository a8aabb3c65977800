import RevisionLog.Proofs.Collation

/-!
# A migration under any collation of names

The replay of a migration follows the last state that it wrote. As long as no row comes back to a
name that was left, it knows of the name of every row; a deletion that comes back is passed over;
and where a live row comes back, its link is that of the first state of its name, so that the row
itself is refused, or later the index of links.

* `Migration.Following` — what the replay knows while it goes on, in any order of names.
* `Migration.Following.copy_of_replay`, `refused_of_replay` — the replay does what `Legacy.replay`
  says.
* `Migration.migrate_in_any_order` — a migration of a fresh log, whatever the collation of names.
-/

namespace RevisionLog

open Store

namespace Log

variable {log : Log}

/-! ## Links -/

/-- Two rows with one link are enough for the index of links to be refused. -/
theorem hasSharedLink_of_mem {rows : List Row} {r s : Row} (hr : r ∈ rows) (hs : s ∈ rows)
    (hne : r ≠ s) (hrs : r.sameLink s = true) (hsr : s.sameLink r = true) :
    hasSharedLink rows = true := by
  induction rows with
  | nil => cases hr
  | cons t rows ih =>
    rw [hasSharedLink, Bool.or_eq_true]
    rcases List.mem_cons.1 hr with rfl | hrest
    · rcases List.mem_cons.1 hs with rfl | hsrest
      · exact absurd rfl hne
      · exact Or.inl (List.any_eq_true.2 ⟨s, hsrest, hrs⟩)
    · rcases List.mem_cons.1 hs with rfl | hsrest
      · exact Or.inl (List.any_eq_true.2 ⟨r, hrest, hsr⟩)
      · exact Or.inr (ih hrest hsrest)

/-- A row takes one id. -/
theorem reached_written_le (log : Log) (d : Draft) : (log.written d).reached ≤ log.reached + 1 := by
  have hsequence : (log.written d).sequence.getD 0 ≤ log.reached + 1 := by
    show max (log.sequence.getD 0) (log.reached + 1) ≤ log.reached + 1
    have hle : log.sequence.getD 0 ≤ log.reached := Int.le_max_left _ _
    omega
  have hgreatest : (log.written d).greatest?.getD 0 ≤ log.reached + 1 := by
    rcases hmax : (log.written d).greatest? with _ | g
    · have hids : (log.written d).ids = [] := List.max?_eq_none_iff.1 hmax
      have hmem : (d.toRow (log.reached + 1)).id ∈ (log.written d).ids :=
        List.mem_map_of_mem (mem_rows_put.2 (Or.inl rfl))
      rw [hids] at hmem
      cases hmem
    · have hmem : g ∈ (log.written d).ids := List.max?_mem hmax
      obtain ⟨r, hr, rfl⟩ := List.mem_map.1 hmem
      rcases mem_rows_put.1 hr with rfl | hr
      · exact Int.le_refl _
      · exact Int.le_trans (id_le_reached hr) (by omega)
  exact Int.max_le.2 ⟨hsequence, hgreatest⟩

end Log

namespace Legacy

/-- Every name that has states has one that follows nothing. -/
def Rooted (told : List Entry) : Prop :=
  ∀ p ∈ told, ∃ q ∈ told, q.name = p.name ∧ q.prevRevision = 0

theorem Rooted.retell {told : List Entry} (h : Rooted told) (e : LegacyEntry) :
    Rooted (Legacy.retell told e) := by
  -- one more state of a name that has states, or that follows nothing
  have hconcat : ∀ x : Entry, (∃ p ∈ told, p.name = x.name) ∨ x.prevRevision = 0 →
      Rooted (told ++ [x]) := by
    intro x hx p hp
    have hold : ∀ p ∈ told, ∃ q ∈ told ++ [x], q.name = p.name ∧ q.prevRevision = 0 := by
      intro p hp
      obtain ⟨q, hq, hroot⟩ := h p hp
      exact ⟨q, List.mem_append_left _ hq, hroot⟩
    rcases List.mem_append.1 hp with hfront | hlast
    · exact hold p hfront
    · obtain rfl := List.mem_singleton.1 hlast
      rcases hx with ⟨q, hq, hname⟩ | hroot
      · rw [← hname]
        exact hold q hq
      · exact ⟨p, hp, rfl, hroot⟩
  have hfound : ∀ p, (told.filter (·.name = e.name)).getLast? = some p →
      ∃ p ∈ told, p.name = e.name := by
    intro p hp
    have hmem := List.mem_filter.1 (List.mem_of_getLast? hp)
    exact ⟨p, hmem.1, of_decide_eq_true hmem.2⟩
  unfold Legacy.retell
  dsimp only
  split
  · next hlive _ => exact hconcat _ (Or.inl (hfound _ (Option.filter_eq_some_iff.1 hlive).1))
  · next hlive _ => exact hconcat _ (Or.inl (hfound _ (Option.filter_eq_some_iff.1 hlive).1))
  · rcases hlast : (told.filter (·.name = e.name)).getLast? with _ | p
    · refine hconcat _ (Or.inr ?_)
      simp only [hlast, Option.map_none, Option.getD_none]
    · exact hconcat _ (Or.inl (hfound p hlast))
  · exact h

end Legacy

namespace Migration

variable {log : Log} {chain : Option Chain} {e : LegacyEntry} {rest : List LegacyEntry}
  {told all : List Entry}

/-- What the replay makes of a row is a row of a user. -/
theorem isUsers_of_draft? {own : Option Chain} {d : Draft} (hd : draft? own e = some d) :
    d.IsUsers := by
  unfold draft? at hd
  dsimp only at hd
  split at hd
  · split at hd
    · obtain rfl := Option.some.inj hd
      exact ⟨_, _, _, _, _, _, _, _, rfl⟩
    · split at hd
      · cases hd
      · obtain rfl := Option.some.inj hd
        exact ⟨_, _, _, _, _, _, _, _, rfl⟩
  · split at hd
    · cases hd
    · obtain rfl := Option.some.inj hd
      exact ⟨_, _, _, _, _, _, _, _, rfl⟩

/-- Where links are not kept unique, the replay goes on over any rows, and keeps what there is. -/
theorem copy_unindexed (log : Log) (chain : Option Chain) (rest : List LegacyEntry)
    (hindexing : log.indexing = .unindexed)
    (hroom : log.reached + rest.length ≤ Revision.greatest) :
    ∃ n copied, copy log chain rest = .ok (n, copied) ∧ ∀ r ∈ log.rows, r ∈ copied.rows := by
  induction rest generalizing log chain with
  | nil => exact ⟨0, log, rfl, fun r hr => hr⟩
  | cons e rest ih =>
    rw [List.length_cons, Int.natCast_add] at hroom
    rcases hd : draft? (Chain.ofName? chain e.name) e with _ | d
    · rw [copy_cons_of_none hd]
      exact ih log chain hindexing (by omega)
    · have hfree : log.linkClash? (d.toRow (log.reached + 1)) = none := by
        rw [Log.linkClash?, hindexing]
        rfl
      have hinsert : log.insert d = .ok (log.reached + 1, log.written d) := by
        rw [Log.insert_of_users (isUsers_of_draft? hd) hfree, Log.append_eq_ok]
        exact ⟨by omega, rfl, rfl⟩
      have hreached := log.reached_written_le d
      obtain ⟨n, copied, hcopy, hkept⟩ :=
        ih (log.written d) (some (extend (Chain.ofName? chain e.name) e (log.reached + 1)))
          hindexing (by omega)
      refine ⟨n + 1, copied, ?_, fun r hr => hkept r (Log.mem_rows_put.2 (Or.inr hr))⟩
      rw [copy]
      dsimp only
      rw [hd]
      dsimp only
      rw [hinsert, ask_eq_ok.2 rfl]
      dsimp only
      rw [hcopy]
      rfl

/-- What the replay knows while it goes on: its chain tells of the last state of all. -/
structure Following (log : Log) (chain : Option Chain) (told : List Entry) :
    Prop extends Log.Sound log where
  retells : log.Retells told
  begun : ∀ c, chain = some c → ∃ p, told.getLast? = some p ∧ p.name = c.name ∧ c.Tells p
  fresh : chain = none → told = []
  rooted : Legacy.Rooted told

namespace Following

/-- Nothing is replayed yet on an empty log. -/
theorem empty (indexing : Indexing) : Following { indexing } none [] where
  toSound := Log.sound_empty indexing
  retells := .empty indexing
  begun c hc := by cases hc
  fresh _ := rfl
  rooted p hp := by cases hp

/-- The replay knows of the name of a row, unless that comes back to a name that was left. -/
theorem knows (h : Following log chain told) (hreturns : ¬Legacy.Returns told e) :
    Knows log chain e.name := by
  by_cases hlast : ∃ p ∈ told.getLast?, p.name = e.name
  · -- the name is that of the last state of all
    obtain ⟨p, hp, hname⟩ := hlast
    rcases hchain : chain with _ | c
    · rw [h.fresh hchain] at hp
      cases hp
    · obtain ⟨q, hq, hqname, htells⟩ := h.begun c hchain
      obtain rfl : q = p := Option.some.inj (hq.symm.trans hp)
      refine Or.inr ⟨c, q, ofName?_eq_some.2 ⟨rfl, hqname.symm.trans hname⟩, ?_, hname, htells⟩
      obtain ⟨front, hfront⟩ := List.getLast?_eq_some_iff.1 hq
      rw [h.retells.chain_eq, hfront, List.filter_append,
        List.filter_cons_of_pos (by simpa using hname), List.filter_nil, List.getLast?_concat]
  · -- the name has no states yet
    have hnone : ∀ p ∈ told, p.name ≠ e.name := fun p hp hname =>
      hreturns ⟨⟨p, hp, hname⟩, fun q hq hqname => hlast ⟨q, hq, hqname⟩⟩
    refine Or.inl ⟨?_, ?_⟩
    · rw [Chain.ofName?, Option.filter_eq_none_iff]
      intro c hc hname
      obtain ⟨q, hq, hqname, -⟩ := h.begun c hc
      exact hlast ⟨q, hq, hqname.trans (of_decide_eq_true hname)⟩
    · rw [h.retells.chain_eq, List.filter_eq_nil_iff]
      intro p hp hname
      exact hnone p hp (of_decide_eq_true hname)

/-- Where a row comes back to a name that was left, the replay has no chain for it. -/
theorem ofName?_eq_none (h : Following log chain told) (hreturns : Legacy.Returns told e) :
    Chain.ofName? chain e.name = none := by
  rw [Chain.ofName?, Option.filter_eq_none_iff]
  intro c hc hname
  obtain ⟨q, hq, hqname, -⟩ := h.begun c hc
  exact hreturns.2 q hq (hqname.trans (of_decide_eq_true hname))

/-- The replay after a row that comes back to no name that was left. -/
theorem step (h : Following log chain told) (hreturns : ¬Legacy.Returns told e)
    (hroom : (told.length : Int) < Revision.greatest) :
    ∃ k log' chain', Following log' chain' (Legacy.retell told e) ∧
      told.length + k = (Legacy.retell told e).length ∧ k ≤ 1 ∧
      ∀ rest, copy log chain (e :: rest) = (copy log' chain' rest).map fun (n, log) =>
        (n + k, log) := by
  have hknows := h.knows hreturns
  have hretell := hknows.retell_eq h.toSound h.retells
  rcases hd : draft? (Chain.ofName? chain e.name) e with _ | d <;> rw [hd] at hretell <;>
    dsimp only at hretell
  · refine ⟨0, log, chain, ?_, ?_, Nat.zero_le 1, fun rest => ?_⟩
    · rw [hretell]
      exact h
    · rw [hretell]
      rfl
    · rw [copy_cons_of_none hd]
      rcases copy log chain rest with _ | ⟨n, copied⟩ <;> rfl
  · obtain ⟨hcontinues, hname, htells⟩ := hknows.draft hd
    have hfits : log.reached < Revision.greatest := by
      rw [h.retells.reached_eq h.toSound]
      exact hroom
    refine ⟨1, log.written d, some (extend (Chain.ofName? chain e.name) e (log.reached + 1)), ?_,
      ?_, Nat.le_refl 1, fun rest => hknows.copy_cons h.toSound hd hfits⟩
    · refine
        { toSound := h.toSound.written hcontinues
          retells := ?_
          begun := ?_
          fresh := fun hnone => by cases hnone
          rooted := h.rooted.retell e }
      · rw [hretell]
        exact h.retells.written h.toSound hcontinues (hknows.stored_upcoming hd)
      · intro c hc
        obtain rfl := Option.some.inj hc
        rw [hretell]
        exact ⟨log.upcoming d, List.getLast?_concat, hname, htells⟩
    · rw [hretell, List.length_append, List.length_singleton]

/-- **Where the replay is not refused**, it writes what it makes of the rows. -/
theorem copy_of_replay (h : Following log chain told)
    (hroom : ((told.length + rest.length : Nat) : Int) ≤ Revision.greatest)
    (hall : Legacy.replay told rest = some all) :
    ∃ n copied last, copy log chain rest = .ok (n, copied) ∧ Following copied last all ∧
      told.length + n = all.length := by
  induction rest generalizing log chain told with
  | nil =>
    obtain rfl := Option.some.inj hall
    exact ⟨0, log, chain, rfl, h, rfl⟩
  | cons e rest ih =>
    rw [List.length_cons] at hroom
    rw [Legacy.replay] at hall
    split at hall
    · next hreturns =>
      split at hall
      · next hdeleted =>
        have hskip : draft? (Chain.ofName? chain e.name) e = none := by
          rw [h.ofName?_eq_none hreturns, draft?, if_pos hdeleted]
        rw [copy_cons_of_none hskip]
        exact ih h (by omega) hall
      · cases hall
    · next hreturns =>
      obtain ⟨k, log', chain', hnext, hlength, hk, hcopy⟩ := h.step hreturns (by omega)
      obtain ⟨n, copied, last, hrest, hfollowing, hn⟩ := ih hnext (by omega) hall
      refine ⟨n + k, copied, last, ?_, hfollowing, by omega⟩
      rw [hcopy, hrest]
      rfl

/-- A live row that comes back to a name that was left has the link of the first state of
the name. -/
theorem refused_of_returns (h : Following log chain told) (hreturns : Legacy.Returns told e)
    (hlive : e.deleted = false)
    (hroom : ((told.length + rest.length : Nat) : Int) < Revision.greatest) :
    copy log chain (e :: rest) = .error (.migrationStep (.copyKey e.name) .keyExists) ∨
      ∃ n copied, copy log chain (e :: rest) = .ok (n, copied) ∧
        Log.hasSharedLink copied.rows = true := by
  obtain ⟨p, hp, hpname⟩ := hreturns.1
  obtain ⟨q, hq, hqname, hroot⟩ := h.rooted p hp
  rw [← h.retells.entries] at hq
  obtain ⟨s, hs, rfl⟩ := Log.mem_entries.1 hq
  have hd : draft? (Chain.ofName? chain e.name) e =
      some (.ofUser e.name true false 0 0 (max e.ttl 0) e.value []) := by
    rw [h.ofName?_eq_none hreturns, draft?, hlive]
    rfl
  generalize hdraft : Draft.ofUser e.name true false 0 0 (max e.ttl 0) e.value [] = d at hd
  have husers : d.IsUsers := ⟨_, _, _, _, _, _, _, _, hdraft.symm⟩
  have hentry : (d.toRow (log.reached + 1)).toEntry.prevRevision = 0 ∧
      (d.toRow (log.reached + 1)).toEntry.name = e.name := by
    rw [← hdraft, Draft.toEntry_ofUser]
    exact ⟨rfl, rfl⟩
  have hplain := husers.isPlain (log.reached + 1)
  have hlink : (d.toRow (log.reached + 1)).sameLink s = true := by
    rw [hplain.sameLink_eq (h.plain s hs), decide_eq_true_iff, hentry.1, hentry.2, hroot, hqname,
      hpname]
    exact ⟨rfl, rfl⟩
  have hback : s.sameLink (d.toRow (log.reached + 1)) = true := by
    rw [(h.plain s hs).sameLink_eq hplain, decide_eq_true_iff, hentry.1, hentry.2, hroot, hqname,
      hpname]
    exact ⟨rfl, rfl⟩
  have hreached := h.retells.reached_eq h.toSound
  by_cases hindexing : log.indexing = .unindexed
  · -- the row is written, and the index of links will be refused
    right
    have hfree : log.linkClash? (d.toRow (log.reached + 1)) = none := by
      rw [Log.linkClash?, hindexing]
      rfl
    have hinsert : log.insert d = .ok (log.reached + 1, log.written d) := by
      rw [Log.insert_of_users husers hfree, Log.append_eq_ok]
      exact ⟨by omega, rfl, rfl⟩
    have hnext := log.reached_written_le d
    obtain ⟨n, copied, hcopy, hkept⟩ :=
      copy_unindexed (log.written d)
        (some (extend (Chain.ofName? chain e.name) e (log.reached + 1))) rest hindexing (by omega)
    refine ⟨n + 1, copied, ?_, ?_⟩
    · rw [copy]
      dsimp only
      rw [hd]
      dsimp only
      rw [hinsert, ask_eq_ok.2 rfl]
      dsimp only
      rw [hcopy]
      rfl
    · refine Log.hasSharedLink_of_mem (hkept _ (Log.mem_rows_put.2 (Or.inl rfl)))
        (hkept s (Log.mem_rows_put.2 (Or.inr hs))) ?_ hlink hback
      intro hsame
      exact Log.fresh_reached s hs (congrArg Row.id hsame).symm
  · -- the row itself is refused
    left
    obtain ⟨columns, hclash⟩ := Log.linkClash?_of_mem hindexing hs hlink
    have hinsert := Log.insert_of_users_of_clash husers hclash
    rw [if_pos (by omega)] at hinsert
    rw [copy]
    dsimp only
    rw [hd]
    dsimp only
    rw [hinsert]
    rfl

/-- **Where the replay is refused**, a row has a taken link, and is refused itself or has the index
of links refused. -/
theorem refused_of_replay (h : Following log chain told)
    (hroom : ((told.length + rest.length : Nat) : Int) ≤ Revision.greatest)
    (hnone : Legacy.replay told rest = none) :
    (∃ name, copy log chain rest = .error (.migrationStep (.copyKey name) .keyExists)) ∨
      ∃ n copied, copy log chain rest = .ok (n, copied) ∧ Log.hasSharedLink copied.rows = true := by
  induction rest generalizing log chain told with
  | nil => cases hnone
  | cons e rest ih =>
    rw [List.length_cons] at hroom
    rw [Legacy.replay] at hnone
    split at hnone
    · next hreturns =>
      split at hnone
      · next hdeleted =>
        have hskip : draft? (Chain.ofName? chain e.name) e = none := by
          rw [h.ofName?_eq_none hreturns, draft?, if_pos hdeleted]
        rw [copy_cons_of_none hskip]
        exact ih h (by omega) hnone
      · next hlive =>
        have hfits : ((told.length + rest.length : Nat) : Int) < Revision.greatest := by omega
        rcases h.refused_of_returns hreturns (eq_false_of_ne_true hlive) hfits with herror | hshared
        · exact Or.inl ⟨e.name, herror⟩
        · exact Or.inr hshared
    · next hreturns =>
      obtain ⟨k, log', chain', hnext, hlength, hk, hcopy⟩ := h.step hreturns (by omega)
      rw [hcopy]
      rcases ih hnext (by omega) hnone with ⟨name, herror⟩ | ⟨n, copied, hok, hshared⟩
      · rw [herror]
        exact Or.inl ⟨name, rfl⟩
      · rw [hok]
        exact Or.inr ⟨n + k, copied, rfl, hshared⟩

end Following

/-! ## A migration of a fresh log -/

/-- What a migration is to make of a table: the states that its rows tell of, in one chain for every
name, which say of a name what they would say if names were compared byte by byte; and what is live
under a name is what its last row says. -/
structure Carries (log : Log) (legacy : Legacy) : Prop where
  rows : log.rows = legacy.states.map Entry.stored
  entries : log.rows.mapM Row.entry = .ok legacy.states
  continuous : Entry.Continuous 0 legacy.states
  content : ∀ name, (legacy.states.filter (·.name = name)).map Legacy.content =
    (legacy.bytewise.states.filter (·.name = name)).map Legacy.content
  value : ∀ name, (Store.get log name 0).map (Option.map Entry.value) =
    .ok (((legacy.bytewise.last? name).filter fun r => r.deleted.toInt = 0).map (·.value.payload))

/-- **A migration of a fresh log, whatever the collation of names.** The rows of every name are
replayed in the order of ids. Where no row that would make a state comes back to a name that was
left, the migration succeeds and carries the table over as it would if names were compared byte by
byte. Everywhere else it is refused for a taken key and changes nothing, or it loses a deletion: a
name is live in the end although its last row deletes it. Where the order takes no two names of the
table for one another, no name is left too early. -/
theorem migrate_in_any_order {legacy : Legacy} (h : legacy.Readable)
    (hroom : (legacy.rows.length : Int) ≤ Revision.greatest) (indexing : Indexing) {version : Int}
    (hversion : version ≠ Migration.version) :
    (∀ name, legacy.rowsOf name = legacy.bytewise.rowsOf name ∧
      (legacy.rowsOf name).Pairwise (·.id < ·.id)) ∧
    (legacy.Unbroken → ∃ log : Log,
      Transaction.run {} (.ok ()) (.ok ()) (.ok ()) Migration.run
          { log := some { indexing }, version, legacy := some legacy } =
        (.ok (.migrated legacy.states.length),
          { log := some log, version := Migration.version, legacy := some legacy }) ∧
      Carries log legacy) ∧
    (¬legacy.Unbroken →
      (∃ step, Transaction.run {} (.ok ()) (.ok ()) (.ok ()) Migration.run
          { log := some { indexing }, version, legacy := some legacy } =
        (.error (.migrationStep step .keyExists),
          { log := some { indexing }, version, legacy := some legacy })) ∨
      ∃ (n : Nat) (log : Log), Transaction.run {} (.ok ()) (.ok ()) (.ok ()) Migration.run
          { log := some { indexing }, version, legacy := some legacy } =
        (.ok (.migrated n),
          { log := some log, version := Migration.version, legacy := some legacy }) ∧
      ∃ name r p, legacy.last? name = some r ∧ r.deleted.toInt ≠ 0 ∧
        Store.get log name 0 = .ok (some p)) ∧
    ((∀ r ∈ legacy.rows, ∀ s ∈ legacy.rows, Legacy.orderNames legacy.collation r.name s.name = .eq →
      r.name = s.name) → legacy.Unbroken) := by
  have hfollowing := Following.empty indexing
  have hlength : (([] : List Entry).length + (legacy.sorted.map LegacyRow.toEntry).length : Nat) ≤
      Revision.greatest := by
    rw [List.length_nil, Nat.zero_add, List.length_map, legacy.perm_sorted.length_eq]
    exact hroom
  have hrun := carryOut_run_eq indexing hversion h.read_eq
  -- a replay that is not refused leaves a log of its states
  have hdone : ∀ {all : List Entry}, Legacy.replay [] (legacy.sorted.map LegacyRow.toEntry) =
    some all → ∃ log : Log, log.Sound ∧ log.Retells all ∧
        Transaction.run {} (.ok ()) (.ok ()) (.ok ()) Migration.run
            { log := some { indexing }, version, legacy := some legacy } =
          (.ok (.migrated all.length),
            { log := some log, version := Migration.version, legacy := some legacy }) := by
    intro all hall
    obtain ⟨n, copied, last, hcopy, hleft, hn⟩ := hfollowing.copy_of_replay hlength hall
    obtain rfl : n = all.length := by rw [List.length_nil, Nat.zero_add] at hn; exact hn
    rw [hcopy] at hrun
    dsimp only at hrun
    rw [hleft.toSound.hasSharedLink_eq_false, if_neg Bool.false_ne_true] at hrun
    refine ⟨{ copied with indexing := .linkFirst }, { hleft.toSound with },
      hleft.retells.reindexed _, ?_⟩
    simp only [Transaction.run_eq, hrun]
    rfl
  refine ⟨fun name => ⟨h.rowsOf_eq name, h.pairwise_rowsOf name⟩, ?_, ?_, h.unbroken⟩
  · intro hunbroken
    obtain ⟨log, hsound, hretells, hcarried⟩ := hdone hunbroken.replay_eq
    obtain ⟨hread, hcontinuous, hvalue⟩ := hretells.reads hsound
    refine ⟨log, hcarried, hretells.rows, hread, hcontinuous, h.content_states, ?_⟩
    intro name
    have hlast : legacy.bytewise.last? name = legacy.last? name :=
      congrArg List.getLast? (h.rowsOf_eq name).symm
    rw [hlast, ← h.valueOf?_states]
    exact hvalue name
  · intro hbroken
    rcases hall : Legacy.replay [] (legacy.sorted.map LegacyRow.toEntry) with _ | all
    · left
      rcases hfollowing.refused_of_replay hlength hall with ⟨name, hcopy⟩ |
        ⟨n, copied, hcopy, hshared⟩
      · rw [hcopy] at hrun
        refine ⟨.copyKey name, ?_⟩
        simp only [Transaction.run_eq, hrun]
        rfl
      · rw [hcopy] at hrun
        dsimp only at hrun
        rw [if_pos hshared] at hrun
        refine ⟨.rebuildIndices, ?_⟩
        simp only [Transaction.run_eq, hrun]
        rfl
    · right
      obtain ⟨log, hsound, hretells, hcarried⟩ := hdone hall
      obtain ⟨name, f, hlast, hdeleted, hlive⟩ := Legacy.exists_live_of_broken hbroken hall
      rw [h.filter_map_toEntry, List.getLast?_map, Option.map_eq_some_iff] at hlast
      obtain ⟨r, hr, rfl⟩ := hlast
      have hvalue := (hretells.reads hsound).2.2 name
      refine ⟨all.length, log, hcarried, name, r, ?_⟩
      rcases hget : Store.get log name 0 with error | p <;> rw [hget] at hvalue
      · cases hvalue
      · have heq : p.map Entry.value = Legacy.valueOf? all name := Except.ok.inj hvalue
        rcases p with _ | p
        · exact absurd heq.symm hlive
        · exact ⟨p, hr, of_decide_eq_true hdeleted, rfl⟩

/-- A row of a table whose columns all hold what they should. -/
def plainRow (id : Int) (name : String) (value : Octets) (deleted : Int) : LegacyRow :=
  ⟨id, .text name, .blob value, .integer deleted, .integer 0⟩

theorem isRegular_plainRow (id : Int) (name : String) (value : Octets) (deleted : Int) :
    (plainRow id name value deleted).IsRegular := ⟨⟨_, rfl⟩, Or.inr ⟨_, rfl⟩, Or.inr ⟨_, rfl⟩⟩

/-- Two names take turns, but the one that was left is ended before, and only ended again. -/
def turning : Legacy where
  rows :=
    [plainRow 1 "A" [1] 0, plainRow 2 "A" [] 1, plainRow 3 "a" [3] 0, plainRow 4 "A" [] 1,
      plainRow 5 "a" [5] 0]
  collation := .caseless

/-- Four of its five rows leave a state. -/
theorem exists_migrate_in_any_order : ∃ log : Log,
    Transaction.run {} (.ok ()) (.ok ()) (.ok ()) Migration.run
        { log := some { indexing := .unindexed }, version := 0, legacy := some turning } =
      (.ok (.migrated 4), { log := some log, version := 1, legacy := some turning }) ∧
    Carries log turning := by
  have hreadable : turning.Readable := by
    refine ⟨?_, by decide, rfl⟩
    intro r hr
    simp only [turning, List.mem_cons, List.not_mem_nil, or_false] at hr
    rcases hr with rfl | rfl | rfl | rfl | rfl <;> exact isRegular_plainRow _ _ _ _
  have hsorted : turning.sorted = turning.rows := List.mergeSort_of_pairwise (by decide)
  have hunbroken : turning.Unbroken := by
    rw [Legacy.Unbroken, hsorted]
    refine ⟨by decide, by decide, by decide, by decide, by decide, trivial⟩
  have hstates : turning.states.length = 4 := by
    rw [Legacy.states, hsorted]
    decide +kernel
  obtain ⟨-, hmigrated, -, -⟩ :=
    migrate_in_any_order hreadable (by decide) .unindexed
      (by decide : (0 : Int) ≠ Migration.version)
  obtain ⟨log, hrun, hcarries⟩ := hmigrated hunbroken
  rw [hstates] at hrun
  exact ⟨log, hrun, hcarries⟩

/-- Two names take turns while both are live. -/
def crossing : Legacy where
  rows := [plainRow 1 "A" [1] 0, plainRow 2 "a" [2] 0, plainRow 3 "A" [3] 0]
  collation := .caseless

/-- The same, with a deletion at the end. -/
def forsaken : Legacy where
  rows := [plainRow 1 "A" [1] 0, plainRow 2 "a" [2] 0, plainRow 3 "A" [] 1]
  collation := .caseless

/-- The first table is not migrated at all, and the second without its deletion. -/
theorem exists_refused_and_lost :
    Transaction.run {} (.ok ()) (.ok ()) (.ok ()) Migration.run
        { log := some { indexing := .unindexed }, version := 0, legacy := some crossing } =
      (.error (.migrationStep .rebuildIndices .keyExists),
        { log := some { indexing := .unindexed }, version := 0, legacy := some crossing }) ∧
    ∃ log : Log, Transaction.run {} (.ok ()) (.ok ()) (.ok ()) Migration.run
        { log := some { indexing := .unindexed }, version := 0, legacy := some forsaken } =
      (.ok (.migrated 2), { log := some log, version := 1, legacy := some forsaken }) ∧
    forsaken.last? "A" = some (plainRow 3 "A" [] 1) ∧
    (Store.get log "A" 0).map (Option.map Entry.value) = .ok (some [1]) := by
  refine ⟨?_, ?_⟩
  · have hsorted : crossing.sorted = crossing.rows := List.mergeSort_of_pairwise (by decide)
    have hread :
        crossing.read = .ok [⟨"A", [1], false, 0⟩, ⟨"a", [2], false, 0⟩, ⟨"A", [3], false, 0⟩] := by
      show crossing.sorted.mapM Legacy.decode = _
      rw [hsorted]
      rfl
    have hshared : (copy { indexing := .unindexed } none
        [⟨"A", [1], false, 0⟩, ⟨"a", [2], false, 0⟩, ⟨"A", [3], false, 0⟩]).map
          (fun r => Log.hasSharedLink r.2.rows) = .ok true := by decide +kernel
    have hrun := carryOut_run_eq .unindexed (by decide : (0 : Int) ≠ Migration.version) hread
    rcases hcopy : copy { indexing := .unindexed } none
        [⟨"A", [1], false, 0⟩, ⟨"a", [2], false, 0⟩, ⟨"A", [3], false, 0⟩] with e | ⟨n, copied⟩ <;>
      rw [hcopy] at hshared hrun
    · cases hshared
    · have hlinks : Log.hasSharedLink copied.rows = true := Except.ok.inj hshared
      dsimp only at hrun
      rw [if_pos hlinks] at hrun
      simp only [Transaction.run_eq, hrun]
      rfl
  · have hsorted : forsaken.sorted = forsaken.rows := List.mergeSort_of_pairwise (by decide)
    have hread :
        forsaken.read = .ok [⟨"A", [1], false, 0⟩, ⟨"a", [2], false, 0⟩, ⟨"A", [], true, 0⟩] := by
      show forsaken.sorted.mapM Legacy.decode = _
      rw [hsorted]
      rfl
    have hleft : (copy { indexing := .unindexed } none
        [⟨"A", [1], false, 0⟩, ⟨"a", [2], false, 0⟩, ⟨"A", [], true, 0⟩]).map
          (fun r => (r.1, Log.hasSharedLink r.2.rows,
            (Store.get { r.2 with indexing := .linkFirst } "A" 0).map (Option.map Entry.value))) =
        .ok (2, false, .ok (some [1])) := by decide +kernel
    have hrun := carryOut_run_eq .unindexed (by decide : (0 : Int) ≠ Migration.version) hread
    rcases hcopy : copy { indexing := .unindexed } none
        [⟨"A", [1], false, 0⟩, ⟨"a", [2], false, 0⟩, ⟨"A", [], true, 0⟩] with e | ⟨n, copied⟩ <;>
      rw [hcopy] at hleft hrun
    · cases hleft
    · simp only [Except.map, Except.ok.injEq, Prod.mk.injEq] at hleft
      obtain ⟨rfl, hlinks, hvalue⟩ := hleft
      dsimp only at hrun
      rw [hlinks, if_neg Bool.false_ne_true] at hrun
      refine ⟨{ copied with indexing := .linkFirst }, ?_, ?_, hvalue⟩
      · simp only [Transaction.run_eq, hrun]
        rfl
      · rw [Legacy.last?, hsorted]
        decide +kernel

end Migration

end RevisionLog
