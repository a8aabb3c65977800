import RevisionLog.Proofs.Cuts
import RevisionLog.Proofs.Passing
import RevisionLog.Session.Opening

/-!
# What a connection string says

A connection string is read from left to right, and the first thing that is wrong with it ends the
reading. What it says is told here by its grammar: how it is laid out, what each part of its query
means, and what is settled by all parts together. It is read exactly if it keeps to the grammar, and
what is read is what it says.

* `Endpoint.Options.Laid` — the path and the parts of a connection string.
* `Endpoint.Means` — the option that a part sets, and its value.
* `Endpoint.Options.settled` — the defaults, and for each option the value that the last part has
  for it.
* `Endpoint.Options.Laid.parse_eq_ok_iff` — what is read.
* `Endpoint.keeps_to_grammar` — all of this, the order of parts, the failures and the schemes.
* `Session.reversible_of_buildPool` — on a file the engine can take back what a transaction did.
-/

namespace RevisionLog.Endpoint

/-! ## The grammar -/

/-- The options there are. -/
inductive Kind
  | journal
  | busyTimeout
  | sync
  | lock
  | sharedCache
  deriving DecidableEq, Repr

/-- The keys under which an option is set. -/
def Kind.keys : Kind → List String
  | journal => ["_journal", "_journal_mode"]
  | busyTimeout => ["_busy_timeout", "_timeout"]
  | sync => ["_synchronous", "_sync"]
  | lock => ["_txlock"]
  | sharedCache => ["cache"]

def Setting.kind : Setting → Kind
  | journal _ => .journal
  | busyTimeout _ => .busyTimeout
  | sync _ => .sync
  | lockAtOnce => .lock
  | sharedCache _ => .sharedCache

/-- The texts that stand for the value of an option. Modes are written in any case of ASCII
letters. -/
def Setting.Spelled : Setting → List Char → Prop
  | journal mode, value => upper value = mode.name.toList
  | busyTimeout millis, value => Text.Numeral value millis ∧ millis < 2 ^ 64
  | sync mode, value => upper value = mode.name.toList
  | lockAtOnce, value => upper value = "IMMEDIATE".toList
  | sharedCache shared, value => value = (if shared then "shared" else "private").toList

/-- A part of a query means a setting: a key of the option, the first equals sign, and a text for
the value. -/
def Means (part : List Char) (setting : Setting) : Prop :=
  ∃ key value, part = key ++ '=' :: value ∧ '=' ∉ key ∧ String.ofList key ∈ setting.kind.keys ∧
    setting.Spelled value

/-- Whether a part of a query has a key of an option. -/
def Kind.names (kind : Kind) (part : List Char) : Bool :=
  match Text.cutAt? ['='] part with
  | some (key, _) => String.ofList key ∈ kind.keys
  | none => false

/-- The path of a connection string and the parts of its query. Blanks around it do not count, nor
does one `file:` in front, and a blank one is the default. The query begins behind the first
question mark. -/
def Options.Laid (connection path : List Char) (parts : List (List Char)) : Prop :=
  ∃ trimmed whole source query, Text.Trimmed connection trimmed ∧
    whole = (if trimmed = [] then defaultConnection else trimmed) ∧
    (whole = "file:".toList ++ source ∨ source = whole ∧ ¬"file:".toList <+: whole) ∧
    (source = path ++ '?' :: query ∧ '?' ∉ path ∨ source = path ∧ '?' ∉ path ∧ query = []) ∧
    ['&'].intercalate parts = query ∧ (∀ part ∈ parts, '&' ∉ part) ∧ parts ≠ []

/-- The last value that settings have for an option, or else the default. -/
def lastOr {α : Type} (default : α) (value? : Setting → Option α) (settings : List Setting) : α :=
  (settings.filterMap value?).getLast?.getD default

def Setting.journal? : Setting → Option JournalMode
  | journal mode => some mode
  | _ => none

def Setting.busyTimeout? : Setting → Option Nat
  | busyTimeout millis => some millis
  | _ => none

def Setting.sync? : Setting → Option SyncMode
  | sync mode => some mode
  | _ => none

def Setting.sharedCache? : Setting → Option Bool
  | sharedCache shared => some shared
  | _ => none

/-- The options that settings come to, by the last one of each kind. -/
def Options.settled (path : List Char) (settings : List Setting) : Options :=
  let defaults : Options := {}
  { defaults with
    path := String.ofList path
    journal := lastOr defaults.journal Setting.journal? settings
    busyTimeout := lastOr defaults.busyTimeout Setting.busyTimeout? settings
    sync := lastOr defaults.sync Setting.sync? settings
    sharedCache := lastOr defaults.sharedCache Setting.sharedCache? settings }

/-! ## Parts -/

section Parts

variable {key value part : List Char} {setting : Setting}

theorem JournalMode.name_injective : Function.Injective JournalMode.name := by
  intro a b
  cases a <;> cases b <;> decide

theorem SyncMode.name_injective : Function.Injective SyncMode.name := by
  intro a b
  cases a <;> cases b <;> decide

/-- A mode is found by its name, in any case of letters. -/
theorem pick?_eq_some_iff {α : Type} {all : List α} {name : α → String} {mode : α}
    (hall : ∀ mode, mode ∈ all) (hinj : Function.Injective name) :
    pick? all name value = some mode ↔ upper value = (name mode).toList := by
  rw [pick?]
  have hname : ∀ {found : α}, (all.find? fun mode => (name mode).toList = upper value) =
      some found → (name found).toList = upper value := by
    intro found hfound
    have hholds := List.find?_some hfound
    exact of_decide_eq_true hholds
  constructor
  · intro hfound
    exact (hname hfound).symm
  · intro hspelled
    have hsome : (all.find? fun mode => (name mode).toList = upper value).isSome = true :=
      List.find?_isSome.2 ⟨mode, hall mode, decide_eq_true hspelled.symm⟩
    obtain ⟨found, hfound⟩ := Option.isSome_iff_exists.1 hsome
    obtain rfl : found = mode := hinj (String.toList_inj.1 ((hname hfound).trans hspelled))
    exact hfound

theorem JournalMode.mem_all (mode : JournalMode) :
    mode ∈ JournalMode.all := by cases mode <;> decide

theorem SyncMode.mem_all (mode : SyncMode) : mode ∈ SyncMode.all := by cases mode <;> decide

/-- No key is one of two options. -/
theorem Kind.eq_of_mem_keys {kind kind' : Kind} {key : String} (h : key ∈ kind.keys)
    (h' : key ∈ kind'.keys) : kind = kind' := by
  cases kind <;> cases kind' <;>
    simp only [keys, List.mem_cons, List.not_mem_nil, or_false] at h h' ⊢ <;> grind

theorem Kind.mem_keys_iff {kind kind' : Kind} {key : String} (h : key ∈ kind.keys) :
    key ∈ kind'.keys ↔ kind' = kind :=
  ⟨fun h' => eq_of_mem_keys h' h, fun heq => heq ▸ h⟩

/-- A mode is read where it is found by its name. -/
theorem read_mode_iff {α : Type} {all : List α} {name : α → String} {wrap : α → Setting}
    {kind : Kind} {e : Misconfiguration} (hall : ∀ mode, mode ∈ all)
    (hinj : Function.Injective name)
    (hwrap : ∀ mode, (wrap mode).kind = kind ∧
      ((wrap mode).Spelled value ↔ upper value = (name mode).toList))
    (honly : setting.kind = kind → ∃ mode, wrap mode = setting) :
    wrap <$> (match pick? all name value with
      | some mode => (.ok mode : Except Misconfiguration α)
      | none => .error e) = .ok setting ↔ setting.kind = kind ∧ setting.Spelled value := by
  have hfound : ∀ mode, pick? all name value = some mode ↔ (wrap mode).Spelled value :=
    fun mode => (pick?_eq_some_iff hall hinj).trans (hwrap mode).2.symm
  constructor
  · intro h
    cases hpick : pick? all name value with
    | none =>
      rw [hpick] at h
      cases h
    | some mode =>
      rw [hpick] at h
      cases h
      exact ⟨(hwrap mode).1, (hfound mode).1 hpick⟩
  · rintro ⟨hkind, hspelled⟩
    obtain ⟨mode, rfl⟩ := honly hkind
    rw [(hfound mode).2 hspelled]
    rfl

theorem Setting.exists_journal (h : setting.kind = .journal) :
    ∃ mode, Setting.journal mode = setting := by
  cases setting <;> cases h
  exact ⟨_, rfl⟩

theorem Setting.exists_sync (h : setting.kind = .sync) : ∃ mode, Setting.sync mode = setting := by
  cases setting <;> cases h
  exact ⟨_, rfl⟩

theorem read_busyTimeout_iff {e : Misconfiguration} :
    (match Text.decimal? greatestTimeout value with
      | some millis => (.ok (.busyTimeout millis) : Except Misconfiguration Setting)
      | none => .error e) = .ok setting ↔ setting.kind = .busyTimeout ∧ setting.Spelled value := by
  have hlimit : ∀ {millis : Nat}, millis ≤ greatestTimeout ↔ millis < 2 ^ 64 := by
    intro millis
    have hgreatest : greatestTimeout = 2 ^ 64 - 1 := rfl
    omega
  have hread : ∀ {millis : Nat}, Text.decimal? greatestTimeout value = some millis ↔
      Text.Numeral value millis ∧ millis < 2 ^ 64 :=
        Text.decimal?_eq_some_iff.trans (and_congr_right' hlimit)
  constructor
  · intro h
    cases hvalue : Text.decimal? greatestTimeout value with
    | none =>
      rw [hvalue] at h
      cases h
    | some millis =>
      rw [hvalue] at h
      cases h
      exact ⟨rfl, hread.1 hvalue⟩
  · rintro ⟨hkind, hspelled⟩
    cases setting <;> cases hkind
    rw [hread.2 hspelled]

theorem read_lock_iff {e : Misconfiguration} :
    (if upper value = "IMMEDIATE".toList then (.ok .lockAtOnce : Except Misconfiguration Setting)
      else .error e) = .ok setting ↔ setting.kind = .lock ∧ setting.Spelled value := by
  constructor
  · intro h
    split at h
    · next hvalue =>
      cases h
      exact ⟨rfl, hvalue⟩
    · cases h
  · rintro ⟨hkind, hspelled⟩
    cases setting <;> cases hkind
    exact if_pos hspelled

theorem read_cache_iff {e : Misconfiguration} :
    (match String.ofList value with
      | "shared" => (.ok (.sharedCache true) : Except Misconfiguration Setting)
      | "private" => .ok (.sharedCache false)
      | _ => .error e) = .ok setting ↔ setting.kind = .sharedCache ∧ setting.Spelled value := by
  have hword : ∀ {word : String}, String.ofList value = word → value = word.toList :=
    fun heq => heq ▸ String.toList_ofList.symm
  constructor
  · intro h
    split at h
    · next heq =>
      cases h
      exact ⟨rfl, hword heq⟩
    · next heq =>
      cases h
      exact ⟨rfl, hword heq⟩
    · cases h
  · rintro ⟨hkind, hspelled⟩
    cases setting with
    | sharedCache shared =>
      have hvalue : String.ofList value = if shared then "shared" else "private" := by
        rw [hspelled, String.ofList_toList]
      rw [hvalue]
      cases shared <;> rfl
    | _ => cases hkind

/-- **A key and a value are an option exactly if the key is one of it and the value is spelled
as one.** -/
theorem Setting.ofPair_eq_ok_iff : Setting.ofPair key value = .ok setting ↔
    String.ofList key ∈ setting.kind.keys ∧ setting.Spelled value := by
  have hof : ∀ {kind : Kind} {k : String}, k ∈ kind.keys →
      (setting.kind = kind ∧ setting.Spelled value ↔
        k ∈ setting.kind.keys ∧ setting.Spelled value) :=
    fun hk => and_congr_left fun _ => (Kind.mem_keys_iff hk).symm
  have hjournal :=
    fun e => @read_mode_iff value setting _ _ _ .journal .journal e JournalMode.mem_all
    JournalMode.name_injective (fun _ => ⟨rfl, Iff.rfl⟩) Setting.exists_journal
  have hsync := fun e => @read_mode_iff value setting _ _ _ .sync .sync e SyncMode.mem_all
    SyncMode.name_injective (fun _ => ⟨rfl, Iff.rfl⟩) Setting.exists_sync
  unfold Setting.ofPair
  generalize String.ofList key = k
  simp only
  split
  · exact (hjournal _).trans (hof (by decide))
  · exact (hjournal _).trans (hof (by decide))
  · exact read_busyTimeout_iff.trans (hof (by decide))
  · exact read_busyTimeout_iff.trans (hof (by decide))
  · exact (hsync _).trans (hof (by decide))
  · exact (hsync _).trans (hof (by decide))
  · exact read_lock_iff.trans (hof (by decide))
  · exact read_cache_iff.trans (hof (by decide))
  · refine iff_of_false (by rintro ⟨⟩) fun h => ?_
    have hmem := h.1
    cases hkind : setting.kind <;> rw [hkind] at hmem <;> simp_all [Kind.keys]

/-- **A part is read as an option exactly if it means one.** -/
theorem read_eq_ok_iff : Setting.read part = .ok setting ↔ Means part setting := by
  constructor
  · intro h
    rw [Setting.read] at h
    split at h
    · next key value hcut =>
      obtain ⟨hpart, hkey⟩ := Text.cutAt?_eq_some_iff.1 hcut
      obtain ⟨hmem, hspelled⟩ := Setting.ofPair_eq_ok_iff.1 h
      exact ⟨key, value, hpart, hkey, hmem, hspelled⟩
    · cases h
  · rintro ⟨key, value, hpart, hkey, hmem, hspelled⟩
    rw [Setting.read, Text.cutAt?_eq_some_iff.2 ⟨hpart, hkey⟩]
    exact Setting.ofPair_eq_ok_iff.2 ⟨hmem, hspelled⟩

theorem Means.unique {other : Setting} (h : Means part setting) (h' : Means part other) :
    setting = other :=
  Except.ok.inj ((read_eq_ok_iff.2 h).symm.trans (read_eq_ok_iff.2 h'))

/-- A part that means a setting has a key of its option, and of no other. -/
theorem Means.names_iff (h : Means part setting) {kind : Kind} :
    kind.names part = true ↔ setting.kind = kind := by
  obtain ⟨key, value, hpart, hkey, hmem, -⟩ := h
  rw [Kind.names, Text.cutAt?_eq_some_iff.2 ⟨hpart, hkey⟩]
  simp only [decide_eq_true_eq]
  exact ⟨fun hmem' => Kind.eq_of_mem_keys hmem hmem', fun heq => heq ▸ hmem⟩

end Parts

/-! ## All parts together -/

section Settings

variable {parts parts' : List (List Char)} {settings settings' : List Setting} {path : List Char}

theorem mapM_read_eq_ok_iff :
    parts.mapM Setting.read = .ok settings ↔ List.Forall₂ Means parts settings := by
  induction parts generalizing settings with
  | nil =>
    constructor
    · intro h
      cases h
      exact .nil
    · intro h
      cases h
      rfl
  | cons part parts ih =>
    rw [List.mapM_cons]
    constructor
    · intro h
      obtain ⟨setting, hread, h⟩ := of_bind_eq_ok h
      obtain ⟨rest, hrest, h⟩ := of_bind_eq_ok h
      cases h
      exact .cons (read_eq_ok_iff.1 hread) (ih.1 hrest)
    · rintro (_ | ⟨hmeans, hrest⟩)
      rw [read_eq_ok_iff.2 hmeans, ih.2 hrest]
      rfl

theorem exists_means_iff :
    (∃ settings, List.Forall₂ Means parts settings) ↔
      ∀ part ∈ parts, ∃ setting, Means part setting := by
  induction parts with
  | nil => exact iff_of_true ⟨[], .nil⟩ fun _ h => absurd h List.not_mem_nil
  | cons part parts ih =>
    constructor
    · rintro ⟨_, _ | ⟨hmeans, hrest⟩⟩
      exact List.forall_mem_cons.2 ⟨⟨_, hmeans⟩, ih.1 ⟨_, hrest⟩⟩
    · intro h
      obtain ⟨⟨setting, hmeans⟩, hrest⟩ := List.forall_mem_cons.1 h
      obtain ⟨rest, hrest⟩ := ih.2 hrest
      exact ⟨setting :: rest, .cons hmeans hrest⟩

/-- What the parts of one option mean are the settings of it, in order. -/
theorem means_filter (h : List.Forall₂ Means parts settings) (kind : Kind) :
    List.Forall₂ Means (parts.filter kind.names) (settings.filter (·.kind = kind)) := by
  induction h with
  | nil => exact .nil
  | @cons part setting _ _ hmeans _ ih =>
    have hnames : kind.names part = true ↔ setting.kind = kind := hmeans.names_iff
    simp only [List.filter_cons, decide_eq_true_eq, ← hnames]
    split
    · exact .cons hmeans ih
    · exact ih

theorem means_unique (h : List.Forall₂ Means parts settings)
    (h' : List.Forall₂ Means parts settings') : settings = settings' :=
  Except.ok.inj ((mapM_read_eq_ok_iff.2 h).symm.trans (mapM_read_eq_ok_iff.2 h'))

/-- One more setting is the last of its option. -/
theorem lastOr_append {α : Type} (default : α) (value? : Setting → Option α)
    (settings : List Setting) (setting : Setting) :
    lastOr default value? (settings ++ [setting]) =
      (value? setting).getD (lastOr default value? settings) := by
  rw [lastOr, List.filterMap_append, List.getLast?_append]
  cases hvalue : value? setting with
  | none => simp [hvalue, lastOr]
  | some a => simp [hvalue]

/-- **Settling the settings in order comes to the last one of each option.** -/
theorem foldl_set_eq (path : List Char) (settings : List Setting) :
    settings.foldl Options.set { path := String.ofList path } = Options.settled path settings := by
  -- from the end, since the last setting of an option is the one that stays
  induction settings using List.reverseRecOn with
  | nil => rfl
  | append_singleton settings setting ih =>
    rw [List.foldl_append, ih, List.foldl_cons, List.foldl_nil, Options.settled, Options.settled]
    simp only [lastOr_append]
    cases setting <;> rfl

/-- Only the settings of an option decide what it comes to. -/
theorem lastOr_congr {α : Type} {default : α} {value? : Setting → Option α} {kind : Kind}
    (hkind : ∀ setting a, value? setting = some a → setting.kind = kind)
    (h : settings.filter (·.kind = kind) = settings'.filter (·.kind = kind)) :
    lastOr default value? settings = lastOr default value? settings' := by
  have hfilter : ∀ ss : List Setting, (ss.filter (·.kind = kind)).filterMap value? =
      ss.filterMap value? := by
    intro ss
    rw [List.filterMap_filter]
    refine List.filterMap_congr fun setting _ => ?_
    split
    · rfl
    · next hother =>
      cases hvalue : value? setting with
      | none => rfl
      | some a => exact absurd (decide_eq_true (hkind setting a hvalue)) hother
  rw [lastOr, lastOr, ← hfilter settings, h, hfilter]

/-- **The order of settings of different options does not matter.** -/
theorem settled_congr
    (h : ∀ kind : Kind, settings.filter (·.kind = kind) = settings'.filter (·.kind = kind)) :
    Options.settled path settings = Options.settled path settings' := by
  have hjournal : ∀ setting mode, Setting.journal? setting = some mode →
      setting.kind = .journal := by
    rintro (_ | _) _ ⟨⟩
    rfl
  have hbusy : ∀ setting millis, Setting.busyTimeout? setting = some millis →
      setting.kind = .busyTimeout := by
    rintro (_ | _) _ ⟨⟩
    rfl
  have hsync : ∀ setting mode, Setting.sync? setting = some mode → setting.kind = .sync := by
    rintro (_ | _) _ ⟨⟩
    rfl
  have hcache : ∀ setting shared, Setting.sharedCache? setting = some shared →
      setting.kind = .sharedCache := by
    rintro (_ | _) _ ⟨⟩
    rfl
  rw [Options.settled, Options.settled, lastOr_congr hjournal (h _), lastOr_congr hbusy (h _),
    lastOr_congr hsync (h _), lastOr_congr hcache (h _)]

end Settings

/-! ## Connection strings -/

namespace Options

variable {d d' path : List Char} {parts parts' : List (List Char)} {o : Options}

/-- What is left of a connection string without the blanks around it and one `file:` in front. -/
theorem exists_source (d : List Char) : ∃ trimmed whole source, Text.Trimmed d trimmed ∧
    whole = (if trimmed = [] then defaultConnection else trimmed) ∧
    (whole = "file:".toList ++ source ∨ source = whole ∧ ¬"file:".toList <+: whole) :=
  ⟨Text.trim d, _, _, Text.trimmed_trim d, rfl, Text.dropStart_eq_iff.1 rfl⟩

/-- Every text is laid out as a connection string in some way. -/
theorem exists_laid (d : List Char) : ∃ path parts, Laid d path parts := by
  obtain ⟨trimmed, whole, source, htrimmed, hwhole, hsource⟩ := exists_source d
  have hparts := fun query => Text.segments_eq_iff.1 (Eq.refl (Text.segments '&' query))
  cases hcut : Text.cutAt? ['?'] source with
  | none =>
    have hmark := Text.cutAt?_eq_none_iff.1 hcut
    exact ⟨source, _, trimmed, whole, source, [], htrimmed, hwhole, hsource, .inr ⟨rfl, hmark, rfl⟩,
      hparts []⟩
  | some pair =>
    obtain ⟨path, query⟩ := pair
    have hmark := Text.cutAt?_eq_some_iff.1 hcut
    exact ⟨path, _, trimmed, whole, source, query, htrimmed, hwhole, hsource, .inl hmark,
      hparts query⟩

/-- **A connection string is read as it is laid out**, the path first and then the parts that are
not empty. -/
theorem Laid.parse_eq (h : Laid d path parts) : ∃ source, parse d =
    if path = [] then .error (.noPath source)
    else do
      let settings ← (parts.filter (!·.isEmpty)).mapM Setting.read
      return settings.foldl Options.set { path := String.ofList path } := by
  obtain ⟨trimmed, whole, source, query, htrimmed, hwhole, hsource, hcut, hparts⟩ := h
  have hcut' : (Text.cutAt? ['?'] source).getD (source, []) = (path, query) := by
    rcases hcut with ⟨heq, hmark⟩ | ⟨rfl, hmark, rfl⟩
    · rw [Text.cutAt?_eq_some_iff.2 ⟨heq, hmark⟩, Option.getD_some]
    · rw [Text.cutAt?_eq_none_iff.2 hmark, Option.getD_none]
  refine ⟨String.ofList source, ?_⟩
  rw [parse, ← Text.trimmed_iff.1 htrimmed]
  simp only [List.isEmpty_iff, ← hwhole, Text.dropStart_eq_iff.2 hsource, hcut',
    Text.segments_eq_iff.2 hparts]

/-- **What is read**: the path, and for each option the last setting that the parts mean. -/
theorem Laid.parse_eq_ok_iff (h : Laid d path parts) : parse d = .ok o ↔ path ≠ [] ∧
    ∃ settings, List.Forall₂ Means (parts.filter (!·.isEmpty)) settings ∧
      o = settled path settings := by
  obtain ⟨source, hparse⟩ := h.parse_eq
  rw [hparse]
  split
  · next hempty => exact iff_of_false (by rintro ⟨⟩) fun h => h.1 hempty
  · next hpath =>
    rw [and_iff_right hpath]
    constructor
    · intro h
      obtain ⟨settings, hread, h⟩ := of_bind_eq_ok h
      refine ⟨settings, mapM_read_eq_ok_iff.1 hread, ?_⟩
      rw [← foldl_set_eq]
      exact (Except.ok.inj h).symm
    · rintro ⟨settings, hmeans, rfl⟩
      rw [mapM_read_eq_ok_iff.2 hmeans, ← foldl_set_eq]
      rfl

/-- **What is accepted**: a path and parts that mean something. -/
theorem Laid.exists_parse_iff (h : Laid d path parts) : (∃ o, parse d = .ok o) ↔
    path ≠ [] ∧ ∀ part ∈ parts, part ≠ [] → ∃ setting, Means part setting := by
  have hmem : ∀ part, part ∈ parts.filter (!·.isEmpty) ↔ part ∈ parts ∧ part ≠ [] := by simp
  simp only [h.parse_eq_ok_iff, exists_and_left]
  refine and_congr_right fun _ => ?_
  rw [exists_comm]
  simp only [exists_and_left, exists_eq, and_true, exists_means_iff, hmem, and_imp]

/-- **The order of parts of different options does not matter.** -/
theorem Laid.parse_of_perm (h : Laid d path parts) (h' : Laid d' path parts')
    (hperm : parts.Perm parts')
    (hkinds : ∀ kind : Kind, parts.filter kind.names = parts'.filter kind.names)
    (hparse : parse d = .ok o) :
    parse d' = .ok o := by
  obtain ⟨hpath, settings, hmeans, rfl⟩ := h.parse_eq_ok_iff.1 hparse
  have hfilled := hperm.filter (!·.isEmpty)
  obtain ⟨settings', hmeans'⟩ := exists_means_iff.2 fun part hpart =>
    exists_means_iff.1 ⟨settings, hmeans⟩ part (hfilled.mem_iff.2 hpart)
  refine h'.parse_eq_ok_iff.2 ⟨hpath, settings', hmeans', settled_congr fun kind => ?_⟩
  have hfilter : ∀ ps : List (List Char), (ps.filter (!·.isEmpty)).filter kind.names =
      ps.filter kind.names := by
    intro ps
    rw [List.filter_filter]
    refine List.filter_congr fun part _ => ?_
    cases part with
    | nil => rfl
    | cons c cs => exact Bool.and_true _
  have hof := means_filter hmeans kind
  have hof' := means_filter hmeans' kind
  rw [hfilter] at hof hof'
  exact means_unique hof (hkinds kind ▸ hof')

/-- Blanks around a connection string do not count. -/
theorem parse_congr (h : Text.trim d = Text.trim d') : parse d = parse d' := by
  rw [parse, parse, h]

end Options

/-! ## Schemes -/

/-- **A scheme of the engine changes nothing.** Blanks behind the scheme do not count either. -/
theorem parse_scheme {scheme : String} (h : scheme ∈ schemes) (d : List Char) :
    parse (scheme.toList ++ "://".toList ++ d) = Options.parse d := by
  have hbare : Text.IsBare (scheme.toList ++ "://".toList) := by
    rcases List.mem_pair.1 h with rfl | rfl <;> refine ⟨?_, ?_⟩ <;> rintro _ ⟨⟩ <;> rfl
  obtain ⟨rest, htrim, hrest⟩ := Text.exists_trim_append hbare (by simp) d
  have hcut : Text.cutAt? "://".toList (scheme.toList ++ "://".toList ++ rest) =
      some (scheme.toList, rest) := by
    rcases List.mem_pair.1 h with rfl | rfl <;> rfl
  rw [parse]
  simp only [htrim, hcut, String.ofList_toList, if_pos h]
  exact Options.parse_congr hrest

/-- Without a scheme, an endpoint is a connection string. -/
theorem parse_of_no_scheme {d : List Char} (h : ¬"://".toList <:+: d) :
    parse d = Options.parse d := by
  have hwithin : ¬"://".toList <:+: Text.trim d := by
    obtain ⟨front, back, hd, -⟩ := Text.trimmed_trim d
    exact fun hwithin => h (hwithin.trans ⟨front, back, hd.symm⟩)
  rw [parse]
  simp only [Text.cutAt?_eq_none_of_absent hwithin]
  exact Options.parse_congr (Text.trim_trim d)

open Session in
/-- A store is not opened at an endpoint that is refused. -/
theorem buildPool_of_parse_error {settings : Settings} {m : Misconfiguration}
    (h : parse settings.endpoint.toList = .error m) (adjust : Options → Options) :
    buildPool settings adjust = pure (.error (.config m)) := by
  rw [buildPool, h]

/-- **What a connection string says.** Every text is laid out as a path and parts. It is read
exactly if there is a path and every part that is not empty means something. What is read are the
defaults with this path and, for each option, the last value that the parts have for it; so parts of
different options may change places. Every failure is a fault of the configuration to whoever opens
a store with it. A scheme in front changes nothing. -/
theorem keeps_to_grammar (d : List Char) :
    (∃ path parts, Options.Laid d path parts) ∧
      (∀ path parts, Options.Laid d path parts →
        ((∃ o, Options.parse d = .ok o) ↔ path ≠ [] ∧ ∀ part ∈ parts, part ≠ [] →
          ∃ setting, Means part setting) ∧
        (∀ o, Options.parse d = .ok o ↔ path ≠ [] ∧
          ∃ settings, List.Forall₂ Means (parts.filter (!·.isEmpty)) settings ∧
            o = Options.settled path settings) ∧
        ∀ d' parts', Options.Laid d' path parts' → parts.Perm parts' →
          (∀ kind : Kind, parts.filter kind.names = parts'.filter kind.names) →
            ∀ o, Options.parse d = .ok o → Options.parse d' = .ok o) ∧
      (∀ m, Options.parse d = .error m → ∀ (settings : Settings) (adjust : Options → Options),
        settings.endpoint.toList = "sqlite://".toList ++ d →
          Session.buildPool settings adjust = pure (.error (.config m))) ∧
      (¬"://".toList <:+: d →
        parse d = Options.parse d ∧ parse ("sqlite://".toList ++ d) = Options.parse d ∧
        parse ("sqlite3://".toList ++ d) = Options.parse d) := by
  have hsqlite : parse ("sqlite://".toList ++ d) = Options.parse d := by
    have hscheme : "sqlite://".toList = "sqlite".toList ++ "://".toList := by decide
    rw [hscheme]
    exact parse_scheme (by decide) d
  have hsqlite3 : parse ("sqlite3://".toList ++ d) = Options.parse d := by
    have hscheme : "sqlite3://".toList = "sqlite3".toList ++ "://".toList := by decide
    rw [hscheme]
    exact parse_scheme (by decide) d
  refine ⟨Options.exists_laid d,
    fun path parts h => ⟨h.exists_parse_iff, fun o => h.parse_eq_ok_iff, ?_⟩, ?_, ?_⟩
  · exact fun d' parts' h' hperm hkinds o hparse => h.parse_of_perm h' hperm hkinds hparse
  · intro m hparse settings adjust hendpoint
    refine buildPool_of_parse_error ?_ adjust
    rw [hendpoint, hsqlite, hparse]
  · exact fun h => ⟨parse_of_no_scheme h, hsqlite, hsqlite3⟩

/-- Of two timeouts the later one counts, also when the other options have changed their places. A
timeout of one millisecond more than the greatest is refused. -/
theorem exists_keeps_to_grammar :
    ∃ (d d' bad : List Char) (o : Options) (m : Misconfiguration) (settings : Settings),
    d = " file:a b.db?cache=shared&_timeout=1&&_sync=full&_busy_timeout=+2\n".toList ∧
    d' = "a b.db?_sync=full&_timeout=1&_busy_timeout=+2&cache=shared&".toList ∧
    o = { path := "a b.db", busyTimeout := 2, sync := .full, sharedCache := true } ∧
    Options.parse d = .ok o ∧ Options.parse d' = .ok o ∧
    ¬"://".toList <:+: d ∧ parse d = .ok o ∧ parse ("sqlite3://".toList ++ d) = .ok o ∧
    bad = "a.db?_timeout=18446744073709551616".toList ∧
    m = .invalidTimeout "_timeout" "18446744073709551616" ∧
    settings.endpoint = "sqlite://a.db?_timeout=18446744073709551616" ∧
    Options.parse bad = .error m ∧
    Session.buildPool settings id = pure (.error (.config m)) := by
  let d := " file:a b.db?cache=shared&_timeout=1&&_sync=full&_busy_timeout=+2\n".toList
  let d' := "a b.db?_sync=full&_timeout=1&_busy_timeout=+2&cache=shared&".toList
  let bad := "a.db?_timeout=18446744073709551616".toList
  let parts :=
    ["cache=shared", "_timeout=1", "", "_sync=full", "_busy_timeout=+2"].map String.toList
  let parts' :=
    ["_sync=full", "_timeout=1", "_busy_timeout=+2", "cache=shared", ""].map String.toList
  have hlaid : Options.Laid d "a b.db".toList parts :=
    ⟨_, _, "a b.db?cache=shared&_timeout=1&&_sync=full&_busy_timeout=+2".toList,
      "cache=shared&_timeout=1&&_sync=full&_busy_timeout=+2".toList, Text.trimmed_trim d, rfl,
      .inl (by decide +kernel), .inl (by decide +kernel),
      Text.segments_eq_iff.1 (by decide +kernel)⟩
  have hlaid' : Options.Laid d' "a b.db".toList parts' :=
    ⟨_, _, d', "_sync=full&_timeout=1&_busy_timeout=+2&cache=shared&".toList, Text.trimmed_trim d',
      rfl, .inr (by decide +kernel), .inl (by decide +kernel),
      Text.segments_eq_iff.1 (by decide +kernel)⟩
  have hparse :
      Options.parse d =
        .ok { path := "a b.db", busyTimeout := 2, sync := .full, sharedCache := true } := by
    decide +kernel
  have hbad : Options.parse bad = .error (.invalidTimeout "_timeout" "18446744073709551616") := by
    decide +kernel
  have hscheme : ¬"://".toList <:+: d := by decide +kernel
  have hkinds : ∀ kind : Kind, parts.filter kind.names = parts'.filter kind.names := by
    intro kind
    cases kind <;> decide +kernel
  obtain ⟨-, hread, -, hschemes⟩ := keeps_to_grammar d
  obtain ⟨-, -, hrefused, -⟩ := keeps_to_grammar bad
  obtain ⟨-, -, hpermuted⟩ := hread _ _ hlaid
  obtain ⟨hbare, -, hsqlite3⟩ := hschemes hscheme
  exact ⟨d, d', bad, _, _, { endpoint := "sqlite://a.db?_timeout=18446744073709551616" }, rfl, rfl,
    rfl, hparse, hpermuted d' parts' hlaid' (by decide +kernel) hkinds _ hparse, hscheme,
    hbare.trans hparse, hsqlite3.trans hparse,
    rfl, rfl, rfl, hbad, hrefused _ hbad _ id (by decide +kernel)⟩

end RevisionLog.Endpoint

namespace RevisionLog.Session

open Endpoint

/-! ## Whether the engine takes back what was done -/

/-- A path that leads to a file is not the one that stands for a content in memory. -/
theorem ne_memoryPath_of_reach? {path : String} {parts : List String} {s s' : Session}
    (h : reach? path s = (some (.file parts), s')) : path ≠ memoryPath := by
  rintro rfl
  have hmemory :
    reach? memoryPath s = (some (.memory s.memories), { s with memories := s.memories + 1 }) := rfl
  rw [hmemory] at h
  cases h

/-- **On a file the engine can take back what a transaction did**, whatever the options say. -/
theorem reversible_of_buildPool {settings : Settings} {adjust : Options → Options} {s s' : Session}
    {store : OpenStore} {parts : List String} (h : buildPool settings adjust s = (.ok store, s'))
    (hfile : store.place = .file parts) : store.reversible = true := by
  rw [buildPool] at h
  rcases hparse : parse settings.endpoint.toList with reason | options <;> rw [hparse] at h
  · cases h
  · simp only [bind, StateT.bind] at h
    rcases hmake : makeDirectory (adjust options).path s with ⟨reason | ⟨⟩, s₁⟩ <;> rw [hmake] at h
    · cases h
    · dsimp only at h
      split at h
      · cases h
      · split at h
        · cases h
        · rcases hreach : reach? (adjust options).path s₁ with ⟨_ | place, s₂⟩ <;>
            simp only [StateT.bind, hreach] at h
          · cases h
          · cases h
            obtain rfl : place = .file parts := hfile
            simp [ne_memoryPath_of_reach? hreach]

end RevisionLog.Session
