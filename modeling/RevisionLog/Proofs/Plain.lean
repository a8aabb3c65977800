import RevisionLog.Log.Query
import Mathlib.Data.List.Nodup
import Mathlib.Data.List.Sort

/-!
# Plain rows

The store only ever writes rows whose name is text and whose other columns, payloads apart, hold
integers. On such rows the conditions of the selections, which know a third truth value, and the
reader, which can refuse a row, come to the same as plain conditions on the entry that a row stands
for.

* `Row.toEntry` — the entry that a row stands for, whatever its columns hold.
* `Row.IsAdmitted` — the columns hold what they are declared for; then `Row.entry` answers
  `Row.toEntry`.
* `Row.IsPlain` — they hold what the store writes.
* `Draft.IsUsers.isPlain`, `Draft.isPlain_placeholder` — what the store writes is plain.
* `Log.entries` — the entries that the rows of a log stand for.
-/

namespace RevisionLog

namespace Cell

/-- The integer in a cell, zero where there is none. -/
def toInt : Cell → Int
  | integer n => n
  | _ => 0

/-- The text in a cell, empty where there is none. -/
def toText : Cell → String
  | text s => s
  | _ => ""

/-! ## Equality of texts -/

theorem orderBy_eq_eq : ∀ {as bs : List Nat}, orderBy as bs = .eq ↔ as = bs
  | [], [] => by simp [orderBy]
  | [], _ :: _ => by simp [orderBy]
  | _ :: _, [] => by simp [orderBy]
  | a :: as, b :: bs => by
    rw [orderBy, Ordering.then_eq_eq, Nat.compare_eq_eq, orderBy_eq_eq, List.cons.injEq]

theorem orderText_eq_eq {s t : String} : orderText s t = .eq ↔ s = t := by
  rw [orderText, orderBy_eq_eq, List.map_inj_right fun _ _ h => Char.toNat_inj.1 h,
    String.toList_inj]

@[simp] theorem equals_text (s t : String) : (text s).equals (text t) = some (decide (s = t)) := by
  simp [equals, order, orderText_eq_eq]

@[simp] theorem equals_integer (m n : Int) :
    (integer m).equals (integer n) = some (decide (m = n)) := by
  simp [equals, order]

end Cell

namespace Row

/-- The entry that a row stands for. A column that does not hold what it should counts as empty. -/
def toEntry (r : Row) : Entry where
  revision := r.id
  name := r.name.toText
  created := r.created.toInt ≠ 0
  deleted := r.deleted.toInt ≠ 0
  createRevision := if r.created.toInt ≠ 0 then r.id else r.createRevision.toInt
  prevRevision := r.prevRevision.toInt
  lease := r.lease.toInt
  value := r.value.payload
  oldValue := r.oldValue.payload

@[simp] theorem revision_toEntry (r : Row) : r.toEntry.revision = r.id := rfl

/-- The columns of a row hold what they are declared for: text in the name, and integers in all but
the payloads, where some may have no value. -/
structure IsAdmitted (r : Row) : Prop where
  name : ∃ s, r.name = .text s
  created : r.created = .null ∨ ∃ n, r.created = .integer n
  deleted : r.deleted = .null ∨ ∃ n, r.deleted = .integer n
  createRevision : ∃ n, r.createRevision = .integer n
  prevRevision : r.prevRevision = .null ∨ ∃ n, r.prevRevision = .integer n
  lease : r.lease = .null ∨ ∃ n, r.lease = .integer n

/-- No value is read as zero. -/
theorem readIntOrZero_eq {c : Cell} (h : c = .null ∨ ∃ n, c = .integer n) (index : Nat)
    (column : String) : readIntOrZero index column c = .ok c.toInt := by
  rcases h with rfl | ⟨n, rfl⟩ <;> rfl

/-- An admitted row is read as the entry it stands for. -/
theorem IsAdmitted.entry_eq {r : Row} (h : r.IsAdmitted) : r.entry = .ok r.toEntry := by
  have hname : readText 1 "name" r.name = .ok r.name.toText := by
    obtain ⟨s, hs⟩ := h.name
    rw [hs]
    rfl
  have hrevision : readInt 4 "create_revision" r.createRevision = .ok r.createRevision.toInt := by
    obtain ⟨n, hn⟩ := h.createRevision
    rw [hn]
    rfl
  simp only [entry, toEntry, readIntOrZero_eq h.created, readIntOrZero_eq h.deleted,
    readIntOrZero_eq h.prevRevision, readIntOrZero_eq h.lease, hname, hrevision]
  by_cases hcreated : r.created.toInt = 0 <;> simp [hcreated, bind, Except.bind, pure, Except.pure]

/-- The columns of a row hold what the store writes: text in the name, integers in all but the
payloads. -/
structure IsPlain (r : Row) : Prop where
  name : ∃ s, r.name = .text s
  created : ∃ n, r.created = .integer n
  deleted : ∃ n, r.deleted = .integer n
  createRevision : ∃ n, r.createRevision = .integer n
  prevRevision : ∃ n, r.prevRevision = .integer n
  lease : ∃ n, r.lease = .integer n

namespace IsPlain

variable {r s : Row}

/-- Every column of a plain row has a value. -/
theorem isAdmitted (h : r.IsPlain) : r.IsAdmitted :=
  ⟨h.name, .inr h.created, .inr h.deleted, h.createRevision, .inr h.prevRevision, .inr h.lease⟩

/-- A plain row is read as the entry it stands for. -/
theorem entry_eq (h : r.IsPlain) : r.entry = .ok r.toEntry := h.isAdmitted.entry_eq

/-! ### Conditions -/

theorem name_eq (h : r.IsPlain) : r.name = .text r.toEntry.name := by
  obtain ⟨s, hs⟩ := h.name
  rw [toEntry, hs, Cell.toText]

theorem isNamed_eq (h : r.IsPlain) (name : String) :
    r.isNamed name = decide (r.toEntry.name = name) := by
  obtain ⟨s, hs⟩ := h.name
  simp [isNamed, toEntry, hs, Cell.toText]

theorem isGap_eq (h : r.IsPlain) : r.isGap = r.toEntry.isGap := by
  obtain ⟨c, hc⟩ := h.created
  obtain ⟨d, hd⟩ := h.deleted
  simp [isGap, notGap, flag, toEntry, Entry.isGap, hc, hd, Cell.toInt]

theorem isTombstone_eq (h : r.IsPlain) : r.isTombstone = r.toEntry.deleted := by
  obtain ⟨d, hd⟩ := h.deleted
  simp [isTombstone, flag, toEntry, hd, Cell.toInt]

theorem isLive_eq (h : r.IsPlain) : r.isLive = !r.toEntry.deleted := by
  obtain ⟨d, hd⟩ := h.deleted
  simp [isLive, toEntry, hd, Cell.toInt]

/-- Whether a row names some revision as the one it follows. -/
theorem flag_prevRevision (h : r.IsPlain) :
    (flag r.prevRevision).holds = decide (r.toEntry.prevRevision ≠ 0) := by
  obtain ⟨p, hp⟩ := h.prevRevision
  simp [flag, toEntry, hp, Cell.toInt]

/-- Whether a row names this revision as the one it follows. -/
theorem equals_prevRevision (h : r.IsPlain) (id : Int) :
    ((Cell.integer id).equals r.prevRevision).holds = decide (id = r.toEntry.prevRevision) := by
  obtain ⟨p, hp⟩ := h.prevRevision
  simp [toEntry, hp, Cell.toInt]

/-- Whether two rows are links of the same revision of the same name. -/
theorem sameLink_eq (hr : r.IsPlain) (hs : s.IsPlain) :
    r.sameLink s =
      decide (r.toEntry.prevRevision = s.toEntry.prevRevision ∧
        r.toEntry.name = s.toEntry.name) := by
  obtain ⟨p, hp⟩ := hr.prevRevision
  obtain ⟨q, hq⟩ := hs.prevRevision
  obtain ⟨m, hm⟩ := hr.name
  obtain ⟨n, hn⟩ := hs.name
  simp [sameLink, toEntry, hp, hq, hm, hn, Cell.toInt, Cell.toText]

end IsPlain

end Row

/-! ## What the store writes -/

namespace Draft

/-- The draft is one of a row that a user writes. -/
def IsUsers (d : Draft) : Prop :=
  ∃ name created deleted createRevision prevRevision lease value oldValue,
    d = ofUser name created deleted createRevision prevRevision lease value oldValue

theorem IsUsers.missing?_eq {d : Draft} (h : d.IsUsers) : d.missing? = none := by
  obtain ⟨name, created, deleted, createRevision, prevRevision, lease, value, oldValue, rfl⟩ := h
  simp [ofUser, missing?]

theorem IsUsers.isPlain {d : Draft} (h : d.IsUsers) (id : Int) : (d.toRow id).IsPlain := by
  obtain ⟨name, created, deleted, createRevision, prevRevision, lease, value, oldValue, rfl⟩ := h
  exact ⟨⟨_, rfl⟩, ⟨_, rfl⟩, ⟨_, rfl⟩, ⟨_, rfl⟩, ⟨_, rfl⟩, ⟨_, rfl⟩⟩

/-- The entry of a row that a user writes. A created one carries its own revision as the one of its
beginning. -/
theorem toEntry_ofUser (name : String) (created deleted : Bool)
    (createRevision prevRevision lease : Int) (value oldValue : Octets) (id : Int) :
    ((ofUser name created deleted createRevision prevRevision lease value oldValue).toRow
      id).toEntry =
      { revision := id, name, created, deleted,
        createRevision := if created then id else createRevision
        prevRevision, lease, value, oldValue } := by
  cases created <;> cases deleted <;>
    simp [ofUser, toRow, Row.toEntry, Cell.ofBool, Cell.toInt, Cell.toText, Cell.payload]

theorem isPlain_placeholder (g id : Int) : ((placeholder g).toRow id).IsPlain :=
  ⟨⟨_, rfl⟩, ⟨_, rfl⟩, ⟨_, rfl⟩, ⟨_, rfl⟩, ⟨_, rfl⟩, ⟨_, rfl⟩⟩

/-- The entry of a placeholder. -/
theorem toEntry_placeholder (g id : Int) :
    ((placeholder g).toRow id).toEntry =
      { revision := id, name := gapStart ++ toString g, created := true,
        deleted := true, createRevision := id
        prevRevision := g, lease := 0, value := [], oldValue := [] } := by
  simp [placeholder, toRow, Row.toEntry, Cell.toInt, Cell.toText, Cell.payload]

end Draft

namespace Log

/-- The entries that the rows stand for, in order of revisions. -/
def entries (log : Log) : List Entry := log.rows.map Row.toEntry

/-- Rows that are admitted are read as the entries they stand for. -/
theorem mapM_entry_of_admitted {rows : List Row} (h : ∀ r ∈ rows, r.IsAdmitted) :
    rows.mapM Row.entry = .ok (rows.map Row.toEntry) := by
  induction rows with
  | nil => rfl
  | cons r rows ih =>
    have hr := (h r List.mem_cons_self).entry_eq
    have hrows := ih fun s hs => h s (List.mem_cons_of_mem r hs)
    rw [List.mapM_cons, hr, hrows]
    rfl

/-- So are rows that are plain. -/
theorem mapM_entry {rows : List Row} (h : ∀ r ∈ rows, r.IsPlain) :
    rows.mapM Row.entry = .ok (rows.map Row.toEntry) := mapM_entry_of_admitted fun r hr =>
      (h r hr).isAdmitted

theorem pairwise_entries (log : Log) : log.entries.Pairwise (·.revision < ·.revision) :=
  List.pairwise_map.2 log.ordered

theorem mem_entries {log : Log} {e : Entry} : e ∈ log.entries ↔ ∃ r ∈ log.rows, r.toEntry = e :=
  List.mem_map

/-- In a list in increasing order no two elements have the same key. -/
theorem eq_of_key_eq {α : Type} {f : α → Int} {l : List α} (hl : l.Pairwise fun a b => f a < f b)
    {a b : α} (ha : a ∈ l) (hb : b ∈ l) (hkey : f a = f b) : a = b := by
  have hnodup : (l.map f).Nodup := List.pairwise_map.2 (hl.imp Int.ne_of_lt)
  exact List.inj_on_of_nodup_map hnodup ha hb hkey

/-- Two lists of entries in order of revisions are the same if they have the same elements. -/
theorem eq_of_mem_iff_of_pairwise {es fs : List Entry} (hes : es.Pairwise (·.revision < ·.revision))
    (hfs : fs.Pairwise (·.revision < ·.revision)) (hmem : ∀ e, e ∈ es ↔ e ∈ fs) : es = fs := by
  have : Std.Irrefl fun e f : Entry => e.revision < f.revision := ⟨fun e => Int.lt_irrefl _⟩
  have : Std.Antisymm fun e f : Entry => e.revision < f.revision := ⟨fun e f hef hfe => by omega⟩
  exact hes.eq_of_mem_iff hfs hmem

/-- The rows of a log have distinct ids. -/
theorem row_eq_of_id_eq {log : Log} {r s : Row} (hr : r ∈ log.rows) (hs : s ∈ log.rows)
    (hid : r.id = s.id) : r = s := eq_of_key_eq log.ordered hr hs hid

/-- No two entries of a log have the same revision. -/
theorem eq_of_revision_eq {log : Log} {e f : Entry} (he : e ∈ log.entries) (hf : f ∈ log.entries)
    (hrev : e.revision = f.revision) : e = f := by
  obtain ⟨r, hr, rfl⟩ := mem_entries.1 he
  obtain ⟨s, hs, rfl⟩ := mem_entries.1 hf
  rw [row_eq_of_id_eq hr hs hrev]

/-- The revision below which history is gone. -/
def floor (log : Log) : Int := (log.watermark.map Cell.toInt).getD 0

/-- Rows are plain and name no later row as the one they follow, and the watermark is a number.
Every log that only the store writes to is tidy. -/
structure Tidy (log : Log) : Prop where
  plain : ∀ r ∈ log.rows, r.IsPlain
  watermark : ∀ c, log.watermark = some c → ∃ n, c = .integer n
  backward : ∀ e ∈ log.entries, e.prevRevision ≤ e.revision

end Log

end RevisionLog
