import RevisionLog.Migration
import RevisionLog.Proofs.Operation

/-!
# The replay of an older table

A migration replays the rows of an older table in the order of names, so that all rows of a name
come one after the other. Every row it writes continues the chain of its name, as the rows of users
do, and so a migrated log is as intact as an empty one.

* `Legacy.pairwise_read` — the order in which the rows are read.
* `Migration.Replaying` — what the replay knows of the log while it goes on; `Replaying.copy`
  carries it to the end.
* `Log.Start` — the logs that a run begins with: an empty one, or what a migration made;
  `Log.Start.intact`.
-/

namespace RevisionLog

open Store

/-! ## The order of the rows -/

namespace Cell

/-- The numbers of the characters of a text. -/
def codes (s : String) : List Nat := s.toList.map Char.toNat

theorem orderBy_eq_compare : ∀ as bs : List Nat, orderBy as bs = compare as bs
  | [], [] => rfl
  | [], _ :: _ => rfl
  | _ :: _, [] => rfl
  | a :: as, b :: bs => by
    rw [orderBy, orderBy_eq_compare as bs, List.compare_eq_compareLex, List.compareLex_cons_cons]

theorem orderText_eq_compareOn : orderText = compareOn codes := by
  funext s t
  exact orderBy_eq_compare _ _

/-- Texts that are each at or below the other are the same. -/
theorem eq_of_isLE_of_isLE {s t : String} (hst : (orderText s t).isLE)
    (hts : (orderText t s).isLE) : s = t := by
  rw [orderText_eq_compareOn] at hst hts
  have heq : compareOn codes s t = .eq := Std.OrientedCmp.isLE_antisymm hst hts
  rw [← orderText_eq_compareOn] at heq
  exact orderText_eq_eq.1 heq

end Cell

namespace Legacy

/-- Order of pairs of a name and an id. -/
def orderKeys : String × Int → String × Int → Ordering :=
  compareLex (compareOn fun key => Cell.codes key.1) (compareOn Prod.snd)

instance : Std.TransCmp orderKeys :=
  inferInstanceAs (Std.TransCmp (compareLex (compareOn fun key : String × Int => Cell.codes key.1)
    (compareOn Prod.snd)))

/-- The name and the id of a row. -/
def key (r : LegacyRow) : String × Int := (r.name.toText, r.id)

/-- What is left of a text where the case of ASCII letters does not count, up to a NUL. -/
def folded (s : String) : List Nat :=
  ((s.toList.takeWhile (· ≠ '\x00')).map Char.toLower).map Char.toNat

/-- What is left of a text where blanks at the end do not count. -/
def trimmed (s : String) : List Nat := (s.toList.reverse.dropWhile (· = ' ')).reverse.map Char.toNat

/-- Order of pairs of a name and an id, with the names compared by a collation. -/
def orderKeysOf : Collation → String × Int → String × Int → Ordering
  | .bytes => orderKeys
  | .caseless =>
    compareLex
      (compareLex (compareOn fun key => folded key.1) (compareOn fun key => key.1.utf8ByteSize))
      (compareOn Prod.snd)
  | .trimmed => compareLex (compareOn fun key => trimmed key.1) (compareOn Prod.snd)

instance : ∀ collation, Std.TransCmp (orderKeysOf collation)
  | .bytes => inferInstanceAs (Std.TransCmp orderKeys)
  | .caseless =>
    inferInstanceAs (Std.TransCmp (compareLex
      (compareLex (compareOn fun key : String × Int => folded key.1)
        (compareOn fun key => key.1.utf8ByteSize))
      (compareOn Prod.snd)))
  | .trimmed =>
    inferInstanceAs (Std.TransCmp (compareLex (compareOn fun key : String × Int => trimmed key.1)
      (compareOn Prod.snd)))

/-- The order of keys is the order of names, and that of ids for one name. -/
theorem orderKeysOf_eq (collation : Collation) (a b : String × Int) :
    orderKeysOf collation a b =
      (orderNames collation (.text a.1) (.text b.1)).then (compare a.2 b.2) := by
  cases collation
  case bytes =>
    simp only [orderNames, Cell.order, Cell.orderText_eq_compareOn]
    rfl
  case caseless =>
    simp only [orderNames, caselessText, Cell.orderBy_eq_compare]
    rfl
  case trimmed =>
    simp only [orderNames, trimmedText, Cell.orderBy_eq_compare]
    rfl

theorem order_eq_orderKeysOf {collation : Collation} {a b : LegacyRow} {s t : String}
    (ha : a.name = .text s) (hb : b.name = .text t) :
    order collation a b = orderKeysOf collation (key a) (key b) := by
  rw [orderKeysOf_eq, order, ha, hb, key, key, ha, hb, Cell.toText, Cell.toText]

/-- A row that was read has a text as its name, and the entry has that name. -/
theorem name_of_decode {r : LegacyRow} {e : LegacyEntry} (h : decode r = .ok e) :
    r.name = .text e.name := by
  rw [decode] at h
  rcases hname : r.name with _ | n | x | s | b <;> rw [hname] at h
  case text =>
    simp only [Row.readText, bind, Except.bind] at h
    split at h
    · cases h
    · split at h
      · cases h
      · cases h
        rfl
  all_goals cases h

theorem names_of_mapM_decode {rows : List LegacyRow} {es : List LegacyEntry}
    (h : rows.mapM decode = .ok es) :
    es.map LegacyEntry.name = rows.map (·.name.toText) ∧ ∀ r ∈ rows, ∃ s, r.name = .text s := by
  induction rows generalizing es with
  | nil =>
    cases h
    exact ⟨rfl, fun r hr => by cases hr⟩
  | cons r rows ih =>
    rw [List.mapM_cons] at h
    rcases hr : decode r with fault | e
    · rw [hr] at h
      cases h
    · rcases hrest : rows.mapM decode with fault | rest
      · rw [hr, hrest] at h
        cases h
      · rw [hr, hrest] at h
        cases h
        obtain ⟨hnames, htexts⟩ := ih hrest
        have hname := name_of_decode hr
        refine ⟨?_, ?_⟩
        · rw [List.map_cons, List.map_cons, hnames, hname, Cell.toText]
        · intro s hs
          rcases List.mem_cons.1 hs with rfl | hs
          · exact ⟨_, hname⟩
          · exact htexts s hs

/-- Rows whose names are texts are sorted by their names and ids. -/
theorem pairwise_sorted_of {legacy : Legacy} (htexts : ∀ r ∈ legacy.rows, ∃ s, r.name = .text s) :
    (legacy.sorted.map key).Pairwise fun a b => (orderKeysOf legacy.collation a b).isLE := by
  have hkeys : legacy.sorted.map key =
      (legacy.rows.map key).mergeSort fun a b => (orderKeysOf legacy.collation a b).isLE := by
    refine List.map_mergeSort ?_
    intro a ha b hb
    obtain ⟨s, hs⟩ := htexts a ha
    obtain ⟨t, ht⟩ := htexts b hb
    rw [order_eq_orderKeysOf hs ht]
    cases orderKeysOf legacy.collation (key a) (key b) <;> rfl
  rw [hkeys]
  refine List.pairwise_mergeSort ?_ ?_ _
  · intro a b c hab hbc
    exact Std.TransCmp.isLE_trans hab hbc
  · intro a b
    have hswap : orderKeysOf legacy.collation a b = (orderKeysOf legacy.collation b a).swap :=
      Std.OrientedCmp.eq_swap
    rw [hswap]
    cases orderKeysOf legacy.collation b a <;> rfl

/-- Where names are compared byte by byte, that is the order of their bytes. -/
theorem pairwise_sorted {legacy : Legacy} (hcollation : legacy.collation = .bytes)
    (htexts : ∀ r ∈ legacy.rows, ∃ s, r.name = .text s) :
    (legacy.sorted.map key).Pairwise fun a b => (orderKeys a b).isLE := by
  have hsorted := pairwise_sorted_of htexts
  rw [hcollation] at hsorted
  exact hsorted

/-- Rows are read in the order of their names. -/
theorem pairwise_read {legacy : Legacy} {es : List LegacyEntry}
    (hcollation : legacy.collation = .bytes) (hread : legacy.read = .ok es) :
    (es.map LegacyEntry.name).Pairwise fun s t => (Cell.orderText s t).isLE := by
  have hdecode : legacy.sorted.mapM decode = .ok es := by
    rw [read] at hread
    split at hread
    · cases hread
    · exact hread
  obtain ⟨hnames, htexts⟩ := names_of_mapM_decode hdecode
  have hmap : es.map LegacyEntry.name = (legacy.sorted.map key).map Prod.fst := by
    rw [hnames, List.map_map]
    rfl
  rw [hmap, List.pairwise_map]
  refine (pairwise_sorted hcollation fun r hr => htexts r (List.mem_mergeSort.2 hr)).imp ?_
  intro a b hle
  rw [Cell.orderText_eq_compareOn]
  exact Ordering.isLE_left_of_isLE_then hle

end Legacy

/-! ## The replay -/

namespace Migration

/-- A state of the log that a chain of the replay tells of. -/
structure Chain.Tells (c : Chain) (p : Entry) : Prop where
  revision : p.revision = c.last
  createRevision : p.createRevision = c.createRevision
  value : p.value = c.value
  deleted : p.deleted = c.deleted

/-- What the replay has to know of a name to tell of it again: it has a chain for the name exactly
where the name has states, and then that tells of the last one. -/
def Knows (log : Log) (chain : Option Chain) (name : String) : Prop :=
  (Chain.ofName? chain name = none ∧ log.chain name = []) ∨
    ∃ c p, Chain.ofName? chain name = some c ∧ (log.chain name).getLast? = some p ∧ p.name = name ∧
      c.Tells p

/-- What the replay knows of the log while it goes on: of the names still to come only the one being
replayed has states, and the chain of the replay tells of its last one. -/
structure Replaying (log : Log) (chain : Option Chain) (rest : List LegacyEntry) :
    Prop extends Log.Sound log where
  told : ∀ c, chain = some c → ∃ p, (log.chain c.name).getLast? = some p ∧ c.Tells p
  fresh : ∀ e ∈ rest, log.chain e.name ≠ [] → ∃ c, chain = some c ∧ c.name = e.name
  sorted : (rest.map LegacyEntry.name).Pairwise fun s t => (Cell.orderText s t).isLE
  begun : ∀ c, chain = some c → ∀ e ∈ rest, (Cell.orderText c.name e.name).isLE

variable {log log' : Log} {chain : Option Chain} {e : LegacyEntry} {rest : List LegacyEntry}

theorem ofName?_eq_some {c : Chain} {name : String} :
    Chain.ofName? chain name = some c ↔ chain = some c ∧ c.name = name := by
  rw [Chain.ofName?, Option.filter_eq_some_iff, decide_eq_true_iff]

namespace Knows

/-- A new life is what the next chain of the replay tells of, if the one before it has ended. -/
theorem tells_birth {own : Option Chain} (hended : ∀ c, own = some c → c.deleted = true)
    (hlive : e.deleted = false) :
    (extend own e (log.reached + 1)).Tells
    (log.upcoming (log.birth e.name e.value (max e.ttl 0))) := by
  rw [Log.upcoming_birth]
  refine ⟨rfl, ?_, by simp [extend, hlive], by simp [extend, hlive]⟩
  rcases own with _ | c
  · rfl
  · simp [extend, hended c rfl]

/-- What a state is replayed as: the life of a head goes on or ends, and where there is no head a
new life begins or there is nothing to end. -/
theorem draft?_eq (h : Knows log chain e.name) :
    draft? (Chain.ofName? chain e.name) e =
      match log.head? e.name with
      | some p => some (Log.sequel p e.deleted (if e.deleted then [] else e.value) (max e.ttl 0))
      | none => if e.deleted then none else some (log.birth e.name e.value (max e.ttl 0)) := by
  rcases h with ⟨hown, hnil⟩ | ⟨c, p, hown, hlast, hname, htells⟩ <;> rw [hown, draft?]
  · have hhead : log.head? e.name = none := by rw [Log.head?, hnil]; rfl
    rw [hhead, Log.birth, hnil]
    rfl
  · rcases hdead : c.deleted with _ | _
    · have hhead : log.head? e.name = some p :=
        Log.head?_eq_some.2 ⟨hlast, by rw [htells.deleted, hdead]⟩
      simp only [hhead, Log.sequel, hname, htells.createRevision, htells.revision, htells.value,
        Bool.not_false, if_true]
    · have hhead : log.head? e.name = none := by
        rw [Log.head?, hlast, Option.filter_eq_none_iff]
        simp [htells.deleted, hdead]
      rw [hhead, Log.birth, hlast, Option.map_some, Option.getD_some, htells.revision]
      rfl

/-- **A replayed row continues the chain of its name**, and the next chain of the replay
tells of it. -/
theorem draft (h : Knows log chain e.name) {d : Draft}
    (hd : draft? (Chain.ofName? chain e.name) e = some d) :
    log.Continues d ∧ (log.upcoming d).name = e.name ∧
      (extend (Chain.ofName? chain e.name) e (log.reached + 1)).Tells (log.upcoming d) := by
  rw [h.draft?_eq] at hd
  rcases hhead : log.head? e.name with _ | p <;> rw [hhead] at hd
  · -- a new life begins
    dsimp only at hd
    split at hd
    · cases hd
    · next hlive =>
      obtain rfl := Option.some.inj hd
      refine ⟨Log.continues_birth hhead, by rw [Log.upcoming_birth], ?_⟩
      refine tells_birth ?_ (eq_false_of_ne_true hlive)
      intro c hc
      rcases h with ⟨hown, -⟩ | ⟨c', p, hown, hlast, -, htells⟩
      · rw [hown] at hc
        cases hc
      · obtain rfl : c' = c := Option.some.inj (hown.symm.trans hc)
        rw [Log.head?, hlast, Option.filter_eq_none_iff] at hhead
        rw [← htells.deleted]
        simpa using hhead p rfl
  · -- the life of the name goes on or ends
    obtain rfl := Option.some.inj hd
    obtain ⟨hlast, hlive⟩ := Log.head?_eq_some.1 hhead
    rcases h with ⟨-, hnil⟩ | ⟨c, p', hown, hlast', hname, htells⟩
    · rw [hnil] at hlast
      cases hlast
    · obtain rfl : p' = p := Option.some.inj (hlast'.symm.trans hlast)
      have hclive : c.deleted = false := by rw [← htells.deleted, hlive]
      refine ⟨Log.continues_sequel hhead, ?_, ?_⟩ <;> rw [Log.upcoming_sequel]
      · exact hname
      · rw [hown]
        exact ⟨rfl, by simp [extend, hclive, htells.createRevision], rfl, rfl⟩

end Knows

namespace Replaying

/-- Where the name is not the one being replayed, it has no states yet. -/
theorem chain_eq_nil (h : Replaying log chain (e :: rest))
    (hown : Chain.ofName? chain e.name = none) : log.chain e.name = [] := by
  by_contra hne
  obtain ⟨c, hc, hname⟩ := h.fresh e List.mem_cons_self hne
  rw [ofName?_eq_some.2 ⟨hc, hname⟩] at hown
  cases hown

/-- The replay knows of the name of the next state. -/
theorem knows (h : Replaying log chain (e :: rest)) : Knows log chain e.name := by
  rcases hown : Chain.ofName? chain e.name with _ | c
  · exact Or.inl ⟨hown, h.chain_eq_nil hown⟩
  · obtain ⟨hc, hname⟩ := ofName?_eq_some.1 hown
    obtain ⟨p, hlast, htells⟩ := h.told c hc
    rw [hname] at hlast
    exact Or.inr ⟨c, p, hown, hlast, (Log.mem_chain.1 (List.mem_of_getLast? hlast)).2.1, htells⟩

/-- A state that leaves no row leaves the replay as it is. -/
theorem skip (h : Replaying log chain (e :: rest)) : Replaying log chain rest where
  toSound := h.toSound
  told := h.told
  fresh f hf := h.fresh f (List.mem_cons_of_mem e hf)
  sorted := h.sorted.tail
  begun c hc f hf := h.begun c hc f (List.mem_cons_of_mem e hf)

/-- The replay after a row. -/
theorem write (h : Replaying log chain (e :: rest)) {d : Draft}
    (hd : draft? (Chain.ofName? chain e.name) e = some d) :
    Replaying (log.written d) (some (extend (Chain.ofName? chain e.name) e (log.reached + 1)))
        rest := by
  obtain ⟨hcontinues, hname, htells⟩ := h.knows.draft hd
  have hafter := (List.pairwise_cons.1 h.sorted).1
  refine
    { toSound := h.written hcontinues
      told := ?told
      fresh := ?fresh
      sorted := h.sorted.tail
      begun := ?begun }
  case told =>
    rintro c hc
    obtain rfl := Option.some.inj hc
    refine ⟨log.upcoming d, ?_, htells⟩
    have hextend : (extend (Chain.ofName? chain e.name) e (log.reached + 1)).name = e.name := rfl
    rw [hextend, hcontinues.chain_written, if_pos hname, List.getLast?_concat]
  case fresh =>
    intro f hf hne
    refine ⟨_, rfl, ?_⟩
    show e.name = f.name
    by_contra hother
    rw [hcontinues.chain_written, if_neg (by rw [hname]; exact hother)] at hne
    -- the name was begun before the one that was just written, so it cannot come again
    obtain ⟨c, hc, hcf⟩ := h.fresh f (List.mem_cons_of_mem e hf) hne
    have hbefore := h.begun c hc e List.mem_cons_self
    rw [hcf] at hbefore
    exact hother (Cell.eq_of_isLE_of_isLE (hafter f.name (List.mem_map_of_mem hf)) hbefore)
  case begun =>
    intro c hc f hf
    obtain rfl := Option.some.inj hc
    exact hafter f.name (List.mem_map_of_mem hf)

/-- **A replay that comes to its end leaves a sound log.** -/
theorem copy {n : Nat} (h : Replaying log chain rest)
    (hcopy : Migration.copy log chain rest = .ok (n, log')) : log'.Sound := by
  induction rest generalizing log chain n with
  | nil =>
    cases hcopy
    exact h.toSound
  | cons e rest ih =>
    rw [Migration.copy] at hcopy
    dsimp only at hcopy
    rcases hd : draft? (Chain.ofName? chain e.name) e with _ | d <;> rw [hd] at hcopy <;>
      dsimp only at hcopy
    · exact ih h.skip hcopy
    · obtain ⟨hcontinues, -, -⟩ := h.knows.draft hd
      rw [h.insert_eq hcontinues] at hcopy
      rcases happend : log.append d with fault | ⟨id, log''⟩
      · rw [happend] at hcopy
        cases hcopy
      · rw [happend] at hcopy
        obtain ⟨-, rfl, rfl⟩ := Log.append_eq_ok.1 happend
        have hrest : ∃ m, Migration.copy (log.written d)
            (some (extend (Chain.ofName? chain e.name) e (log.reached + 1))) rest =
              .ok (m, log') := by
          rcases hcall : Migration.copy (log.written d)
            (some (extend (Chain.ofName? chain e.name) e (log.reached + 1))) rest with error | ⟨m,
              log''⟩
          · simp only [ask, Except.mapError, hcall] at hcopy
            cases hcopy
          · simp only [ask, Except.mapError, hcall] at hcopy
            cases hcopy
            exact ⟨m, rfl⟩
        obtain ⟨m, hm⟩ := hrest
        exact ih (h.write hd) hm

end Replaying

/-! ## The whole migration -/

/-- Work that was followed by other work and went well went well on its own. -/
theorem of_carryOut_bind {α β : Type} {work : Work α} {next : α → Work β} {b : β}
    {db db' : Database} (h : (work >>= next).carryOut db = (.ok b, db')) :
    ∃ a between, work.carryOut db = (.ok a, between) ∧
        (next a).carryOut between = (.ok b, db') := by
  rcases hwork : work.carryOut db with ⟨e | a, between⟩
  · rw [Work.carryOut_bind_of_error hwork] at h
    cases h
  · rw [Work.carryOut_bind_of_ok hwork] at h
    exact ⟨a, between, rfl, h⟩

/-- An answer that went well, as work. -/
theorem of_carryOut_liftExcept {α : Type} {answer : Except Error α} {a : α} {db db' : Database}
    (h : (copyLegacy.liftExcept answer).carryOut db = (.ok a, db')) :
    answer = .ok a ∧ db' = db := by
  rcases answer with e | b
  · cases h
  · cases h
    exact ⟨rfl, rfl⟩

theorem of_inStep {α : Type} {step : MigrationStep} {answer : Except Fault α} {a : α}
    (h : inStep step answer = .ok a) : answer = .ok a := by
  rcases answer with fault | b
  · cases h
  · cases h
    rfl

/-- What the copy of an older table answers and leaves. -/
theorem of_copyLegacy {legacy : Legacy} {db db' : Database} {n : Nat} (hlog : db.log = some log)
    (hcopy : (copyLegacy legacy).carryOut db = (.ok (.migrated n), db')) :
    ∃ es copied, legacy.read = .ok es ∧ Migration.copy log none es = .ok (n, copied) ∧
      db'.log = some copied := by
  obtain ⟨db₁, db₂, hget, hfound⟩ := of_carryOut_bind hcopy
  cases hget
  rw [hlog] at hfound
  dsimp only at hfound
  split at hfound
  · obtain ⟨es, db₃, hread, hrest⟩ := of_carryOut_bind hfound
    obtain ⟨hes, rfl⟩ := of_carryOut_liftExcept hread
    obtain ⟨⟨m, copied⟩, db₄, hdone, hend⟩ := of_carryOut_bind hrest
    obtain ⟨hcopied, rfl⟩ := of_carryOut_liftExcept hdone
    refine ⟨es, copied, of_inStep hes, ?_, ?_⟩
    · cases hend
      exact hcopied
    · cases hend
      rfl
  · cases hfound

/-- What the new indices leave. -/
theorem of_rebuildIndices {db db' : Database} {u : Unit} (hlog : db.log = some log)
    (hrebuild : rebuildIndices.carryOut db = (.ok u, db')) :
    db'.log = some { log with indexing := .linkFirst } := by
  obtain ⟨db₁, db₂, hget, hfound⟩ := of_carryOut_bind hrebuild
  cases hget
  rw [hlog] at hfound
  dsimp only at hfound
  split at hfound
  · cases hfound
  · next reindexed hreindex =>
    have hlink := of_inStep hreindex
    simp only [Log.reindex, Indexing.linkColumns?] at hlink
    split at hlink
    · cases hlink
    · cases hlink
      cases hfound
      rfl

/-- What a migration of an older table leaves. -/
theorem of_run {legacy : Legacy} {version : Int} {n : Nat} {db : Database}
    (hrun : (Migration.run).carryOut { log := some log, version, legacy := some legacy } =
      (.ok (.migrated n), db)) :
    ∃ es copied, legacy.read = .ok es ∧ Migration.copy log none es = .ok (n, copied) ∧
      db.log = some { copied with indexing := .linkFirst } := by
  obtain ⟨db₁, db₂, hget, hfound⟩ := of_carryOut_bind hrun
  cases hget
  dsimp only at hfound
  split at hfound
  · cases hfound
  · obtain ⟨status, db₃, hcopy, hrest⟩ := of_carryOut_bind hfound
    obtain ⟨u, db₄, hrebuild, hend⟩ := of_carryOut_bind hrest
    obtain rfl : status = .migrated n := by
      cases hend
      rfl
    obtain ⟨es, copied, hread, hcopied, hlog⟩ := of_copyLegacy rfl hcopy
    have hleft := of_rebuildIndices hlog hrebuild
    cases hend
    exact ⟨es, copied, hread, hcopied, hleft⟩

/-- What becomes of a table that can be read is decided by the replay, and then by the index
of links. -/
theorem carryOut_run_eq (indexing : Indexing) {version : Int} {legacy : Legacy}
    {es : List LegacyEntry} (hversion : version ≠ Migration.version)
    (hread : legacy.read = .ok es) :
    (Migration.run).carryOut { log := some { indexing }, version, legacy := some legacy } =
      match Migration.copy { indexing } none es with
      | .error e => (.error e, { log := some { indexing }, version, legacy := some legacy })
      | .ok (n, copied) =>
        if Log.hasSharedLink copied.rows then
          (.error (.migrationStep .rebuildIndices .keyExists),
            { log := some copied, version, legacy := some legacy })
        else
          (.ok (.migrated n),
            { log := some { copied with indexing := .linkFirst }, version := Migration.version,
              legacy := some legacy }) := by
  have hget : ∀ db : Database, (get : Work Database).carryOut db = (.ok db, db) := fun _ => rfl
  have hlift : ∀ {α : Type} (answer : Except Error α) (db : Database),
      (copyLegacy.liftExcept answer).carryOut db = (answer, db) := by
    rintro α (e | a) db <;> rfl
  have hcopied :
      (copyLegacy legacy).carryOut { log := some { indexing }, version, legacy := some legacy } =
      match Migration.copy { indexing } none es with
      | .error e => (.error e, { log := some { indexing }, version, legacy := some legacy })
      | .ok (n, copied) =>
          (.ok (.migrated n), { log := some copied, version, legacy := some legacy }) := by
    rw [copyLegacy, Work.carryOut_bind_of_ok (hget _), hread]
    show (copyLegacy.liftExcept (.ok es) >>= _).carryOut _ = _
    rw [Work.carryOut_bind_of_ok (hlift (.ok es) _)]
    rcases Migration.copy { indexing } none es with e | ⟨n, copied⟩
    · exact Work.carryOut_bind_of_error (hlift (.error e) _)
    · rw [Work.carryOut_bind_of_ok (hlift (.ok (n, copied)) _)]
      rfl
  rw [Migration.run, Work.carryOut_bind_of_ok (hget _)]
  dsimp only
  rw [if_neg hversion]
  show (copyLegacy legacy >>= _).carryOut _ = _
  rcases hcopy : Migration.copy { indexing } none es with e | ⟨n, copied⟩ <;> rw [hcopy] at hcopied
  · exact Work.carryOut_bind_of_error hcopied
  · rw [Work.carryOut_bind_of_ok hcopied]
    dsimp only
    rcases hlinks : Log.hasSharedLink copied.rows with _ | _
    · have hindexed :
          rebuildIndices.carryOut { log := some copied, version, legacy := some legacy } =
            (.ok (), { log := some { copied with indexing := .linkFirst }, version
                       legacy := some legacy }) := by
        rw [rebuildIndices, Work.carryOut_bind_of_ok (hget _)]
        simp only [Log.reindex, Indexing.linkColumns?, hlinks]
        rfl
      rw [Work.carryOut_bind_of_ok hindexed]
      rfl
    · have hindexed :
          rebuildIndices.carryOut { log := some copied, version, legacy := some legacy } =
          (.error (.migrationStep .rebuildIndices .keyExists),
            { log := some copied, version, legacy := some legacy }) := by
        rw [rebuildIndices, Work.carryOut_bind_of_ok (hget _)]
        simp only [Log.reindex, Indexing.linkColumns?, hlinks]
        rfl
      rw [Work.carryOut_bind_of_error hindexed]
      rfl

/-- A table that can be read and replayed is migrated, if its index of links can be made. -/
theorem carryOut_run {indexing : Indexing} {version : Int} {legacy : Legacy} {es : List LegacyEntry}
    {n : Nat} {copied : Log} (hversion : version ≠ Migration.version) (hread : legacy.read = .ok es)
    (hcopy : Migration.copy { indexing } none es = .ok (n, copied))
    (hlinks : Log.hasSharedLink copied.rows = false) :
    (Migration.run).carryOut { log := some { indexing }, version, legacy := some legacy } =
      (.ok (.migrated n),
        { log := some { copied with indexing := .linkFirst }, version := Migration.version,
          legacy := some legacy }) := by
  rw [carryOut_run_eq _ hversion hread, hcopy]
  dsimp only
  rw [hlinks, if_neg Bool.false_ne_true]

end Migration

namespace Log

/-- The logs that a run begins with: an empty one, or what a migration made of an older table whose
names are ordered by their bytes. -/
inductive Start : Log → Prop
  | empty : Start { indexing := .linkFirst }
  | migrated {indexing : Indexing} {version : Int} {legacy : Legacy} {n : Nat} {db : Database}
      {log : Log} :
    legacy.collation = .bytes →
      (Migration.run).carryOut { log := some { indexing }, version, legacy := some legacy } =
        (.ok (.migrated n), db) → db.log = some log → Start log

/-- A log without rows and without a watermark is sound. -/
theorem sound_empty (indexing : Indexing) : Sound { indexing } where
  plain r hr := by cases hr
  watermark c hc := by cases hc
  backward e he := by cases he
  floor_nonneg := Int.le_refl 0
  floor_le := Int.le_refl 0
  positive e he := by cases he
  remembered e he := by cases he
  placeholder e he := by cases he
  earlier e he := by cases he
  born e he := by cases he
  links e he := by cases he
  chained _ := .nil
  dangling name e he := by cases he

/-- Nothing is replayed yet on an empty log. -/
theorem replaying_empty (indexing : Indexing) {es : List LegacyEntry}
    (hsorted : (es.map LegacyEntry.name).Pairwise fun s t => (Cell.orderText s t).isLE) :
    Migration.Replaying { indexing } none es where
  toSound := sound_empty indexing
  told c hc := by cases hc
  fresh e _ hne := absurd rfl hne
  sorted := hsorted
  begun c hc := by cases hc

/-- **A run begins with an intact log.** -/
theorem Start.intact {log : Log} (h : log.Start) : log.Intact := by
  cases h with
  | empty => exact ⟨sound_empty _, rfl⟩
  | @migrated indexing _ legacy _ _ _ hcollation hrun hlog =>
    obtain ⟨es, copied, hread, hcopied, hleft⟩ := Migration.of_run hrun
    obtain rfl := Option.some.inj (hlog.symm.trans hleft)
    have hsound := (replaying_empty indexing (Legacy.pairwise_read hcollation hread)).copy hcopied
    exact ⟨{ hsound with }, rfl⟩

/-- An older table with a key that lived, ended and came back. -/
def returning : Legacy where
  rows :=
    [⟨1, .text "a", .blob [1], .integer 0, .integer 0⟩,
      ⟨2, .text "a", .null, .integer 1, .integer 0⟩,
      ⟨3, .text "a", .blob [2], .integer 0, .integer 5⟩]

/-- A run can begin with what a migration made. -/
theorem Start.exists_migrated : ∃ log : Log, log.Start ∧ log.rows.length = 3 := by
  have hsorted : returning.sorted = returning.rows := List.mergeSort_of_pairwise (by decide)
  have hread : returning.read =
      .ok [⟨"a", [1], false, 0⟩, ⟨"a", [], true, 0⟩, ⟨"a", [2], false, 5⟩] := by
    show returning.sorted.mapM Legacy.decode = _
    rw [hsorted]
    rfl
  have hcopy : (Migration.copy { indexing := .nameFirst } none
      [⟨"a", [1], false, 0⟩, ⟨"a", [], true, 0⟩, ⟨"a", [2], false, 5⟩]).map
        (fun r => (r.2.rows.length, hasSharedLink r.2.rows)) = .ok (3, false) := by decide +kernel
  rcases hcopied : Migration.copy { indexing := .nameFirst } none
      [⟨"a", [1], false, 0⟩, ⟨"a", [], true, 0⟩, ⟨"a", [2], false, 5⟩] with e | ⟨n, copied⟩ <;>
        rw [hcopied] at hcopy
  · cases hcopy
  · obtain ⟨hlength, hlinks⟩ := Prod.mk.inj (Except.ok.inj hcopy)
    have hrun :=
      Migration.carryOut_run (by decide : (0 : Int) ≠ Migration.version) hread hcopied hlinks
    exact ⟨_, .migrated rfl hrun rfl, hlength⟩

end Log

end RevisionLog
