import Mathlib.Data.List.TakeWhile
import Mathlib.Data.Nat.Digits.Defs
import RevisionLog.Text.Blank
import RevisionLog.Text.Segment

/-!
# What cutting leaves

Texts are trimmed, cut at marks and read as numbers by functions that go through them from the
front. Here it is said of each what its results are, as rules on whole texts that the results and no
others keep.

* `Text.Trimmed`, `Text.trimmed_iff` — trimming takes blanks from both ends until none is left
  there.
* `Text.cutAt?_eq_some_iff` — a cut is made at the first place of a mark.
* `Text.segments_eq_iff` — the parts between marks have none, and with marks between them they make
  up the text.
* `Text.Numeral`, `Text.decimal?_eq_some_iff` — what is read as a number.
-/

namespace RevisionLog.Text

variable {cs t : List Char}

/-! ## Trimming -/

/-- A text with no blank at either end. -/
structure IsBare (t : List Char) : Prop where
  head : ∀ c, t.head? = some c → isBlank c = false
  last : ∀ c, t.getLast? = some c → isBlank c = false

/-- A text without the blanks around it. -/
def Trimmed (cs t : List Char) : Prop :=
  ∃ front back, cs = front ++ t ++ back ∧ (∀ c ∈ front ++ back, isBlank c = true) ∧ IsBare t

theorem dropWhile_of_head {p : Char → Bool} (h : ∀ c, cs.head? = some c → p c = false) :
    cs.dropWhile p = cs := by
  cases cs with
  | nil => rfl
  | cons c cs => exact List.dropWhile_cons_of_neg (by rw [h c rfl]; exact Bool.false_ne_true)

theorem head_dropWhile {p : Char → Bool} {c : Char} (h : (cs.dropWhile p).head? = some c) :
    p c = false := by
  have hnot := List.head?_dropWhile_not p cs
  rwa [h] at hnot

theorem Trimmed.eq_trim (h : Trimmed cs t) : t = trim cs := by
  obtain ⟨front, back, rfl, hblank, hbare⟩ := h
  have hfront : ∀ c ∈ front, isBlank c = true := fun c hc => hblank c (List.mem_append_left back hc)
  have hback : ∀ c ∈ back, isBlank c = true := fun c hc => hblank c (List.mem_append_right front hc)
  rw [trim, stripEnds, List.append_assoc, List.dropWhile_append_of_pos hfront]
  cases t with
  | nil =>
    rw [List.nil_append, List.dropWhile_eq_nil_iff.2 hback]
    rfl
  | cons c t =>
    have hstart : ((c :: t) ++ back).dropWhile isBlank = (c :: t) ++ back :=
      dropWhile_of_head fun d hd => hbare.head d hd
    have hend : (c :: t).reverse.dropWhile isBlank = (c :: t).reverse :=
      dropWhile_of_head fun d hd => hbare.last d (List.head?_reverse ▸ hd)
    rw [hstart, List.reverse_append,
      List.dropWhile_append_of_pos fun d hd => hback d (List.mem_reverse.1 hd), hend,
      List.reverse_reverse]

theorem trimmed_trim (cs : List Char) : Trimmed cs (trim cs) := by
  let behind := cs.dropWhile isBlank
  let back := (behind.reverse.takeWhile isBlank).reverse
  have hbehind : behind = trim cs ++ back := by
    rw [trim, stripEnds, ← List.reverse_append, List.takeWhile_append_dropWhile,
      List.reverse_reverse]
  refine ⟨cs.takeWhile isBlank, back, ?_, fun c hc => ?_, fun c hc => ?_, fun c hc => ?_⟩
  · rw [List.append_assoc, ← hbehind, List.takeWhile_append_dropWhile]
  · rcases List.mem_append.1 hc with hc | hc
    · exact List.mem_takeWhile_imp hc
    · exact List.mem_takeWhile_imp (List.mem_reverse.1 hc)
  · have hhead : behind.head? = some c := by
      rw [hbehind, List.head?_append, hc, Option.some_or]
    exact head_dropWhile hhead
  · rw [trim, stripEnds, List.getLast?_reverse] at hc
    exact head_dropWhile hc

/-- **Trimming takes blanks from both ends until none is left there.** -/
theorem trimmed_iff : Trimmed cs t ↔ t = trim cs :=
  ⟨Trimmed.eq_trim, fun h => h ▸ trimmed_trim cs⟩

theorem trim_trim (cs : List Char) : trim (trim cs) = trim cs := by
  obtain ⟨_, _, -, -, hbare⟩ := trimmed_trim cs
  exact (Trimmed.eq_trim ⟨[], [], (List.append_nil _).symm, (fun c hc => by cases hc), hbare⟩).symm

/-- What stands between two texts does not matter for blanks at the ends. -/
theorem IsBare.append {start : List Char} (hstart : IsBare start) (ht : IsBare t) (hne : start ≠ [])
    (hne' : t ≠ []) (between : List Char) : IsBare (start ++ (between ++ t)) where
  head := by
    intro c hc
    obtain ⟨first, rest, rfl⟩ := List.exists_cons_of_ne_nil hne
    exact hstart.head c hc
  last := by
    intro c hc
    have hlast : t.getLast? = some (t.getLast hne') := List.getLast?_eq_some_getLast hne'
    rw [← List.append_assoc, List.getLast?_append, hlast, Option.some_or] at hc
    exact ht.last c (hlast.trans hc)

/-- Behind a text with no blank at either end, blanks stay in front and are taken off at the end. -/
theorem exists_trim_append {start : List Char} (hstart : IsBare start) (hne : start ≠ [])
    (cs : List Char) : ∃ rest, trim (start ++ cs) = start ++ rest ∧ trim rest = trim cs := by
  obtain ⟨front, back, hcs, hblank, hbare⟩ := trimmed_trim cs
  by_cases hempty : trim cs = []
  -- where there are blanks only, they all stand at the end
  · rw [hempty, List.append_nil] at hcs
    have htrimmed : Trimmed (start ++ cs) start :=
      ⟨[], front ++ back, by rw [hcs]; rfl, hblank, hstart⟩
    exact ⟨[], by rw [← htrimmed.eq_trim, List.append_nil], hempty.symm⟩
  · have htrimmed : Trimmed (start ++ cs) (start ++ (front ++ trim cs)) := by
      refine ⟨[], back, ?_, fun c hc => hblank c (List.mem_append_right front hc),
        hstart.append hbare hne hempty front⟩
      rw [List.nil_append, List.append_assoc start, ← hcs]
    have hrest : Trimmed (front ++ trim cs) (trim cs) := by
      refine ⟨front, [], (List.append_nil _).symm, fun c hc => ?_, hbare⟩
      rw [List.append_nil] at hc
      exact hblank c (List.mem_append_left back hc)
    exact ⟨_, htrimmed.eq_trim.symm, hrest.eq_trim.symm⟩

/-! ## Cuts -/

theorem cutAt?_cons (mark c : Char) (cs : List Char) : cutAt? [mark] (c :: cs) =
    if mark = c then some ([], cs) else (cutAt? [mark] cs).map fun (before, behind) =>
        (c :: before, behind) := by
  rw [cutAt?]
  by_cases hmark : mark = c <;> simp [hmark]

/-- **A cut is made at the first place of a mark.** -/
theorem cutAt?_eq_some_iff {mark : Char} {before behind : List Char} :
    cutAt? [mark] cs = some (before, behind) ↔ cs = before ++ mark :: behind ∧ mark ∉ before := by
  induction cs generalizing before with
  | nil => simp [cutAt?]
  | cons c cs ih =>
    rw [cutAt?_cons]
    by_cases hmark : mark = c
    · subst hmark
      cases before with
      | nil => simp
      | cons d ds => simp +contextual
    · rw [if_neg hmark, Option.map_eq_some_iff]
      constructor
      · rintro ⟨⟨before', behind'⟩, hcut, heq⟩
        cases heq
        obtain ⟨rfl, hnot⟩ := ih.1 hcut
        exact ⟨rfl, fun hmem => (List.mem_cons.1 hmem).elim hmark hnot⟩
      · rintro ⟨heq, hnot⟩
        cases before with
        | nil =>
          cases heq
          exact absurd rfl hmark
        | cons d ds =>
          cases heq
          exact ⟨(ds, behind), ih.2 ⟨rfl, fun hmem => hnot (List.mem_cons_of_mem _ hmem)⟩, rfl⟩

/-- No cut is made where there is no mark. -/
theorem cutAt?_eq_none_iff {mark : Char} : cutAt? [mark] cs = none ↔ mark ∉ cs := by
  induction cs with
  | nil => simp [cutAt?]
  | cons c cs ih =>
    rw [cutAt?_cons]
    by_cases hmark : mark = c
    · simp [hmark]
    · rw [if_neg hmark, Option.map_eq_none_iff, ih, List.mem_cons, not_or, and_iff_right hmark]

theorem cutAt?_eq_none_of_absent {mark : List Char} (h : ¬mark <:+: cs) :
    cutAt? mark cs = none := by
  induction cs with
  | nil =>
    rw [cutAt?, if_neg]
    intro hempty
    rw [List.isEmpty_iff.1 hempty] at h
    exact h List.infix_rfl
  | cons c cs ih =>
    rw [cutAt?, if_neg fun hstart => h (List.isPrefixOf_iff_prefix.1 hstart).isInfix,
      ih fun hwithin => h (hwithin.trans (List.suffix_cons c cs).isInfix), Option.map_none]

/-! ## Parts -/

theorem splitOn_ne_nil (mark : Char) (cs : List Char) : cs.splitOn mark ≠ [] :=
  List.splitOnP_ne_nil _ _

theorem segments_eq_splitOn (mark : Char) (cs : List Char) :
    segments mark cs = cs.splitOn mark := by
  induction cs with
  | nil => rfl
  | cons c cs ih =>
    have hcons : (c :: cs).splitOn mark =
        if c = mark then [] :: cs.splitOn mark else (cs.splitOn mark).modifyHead (c :: ·) := by
      simp only [List.splitOn, List.splitOnP_cons_eq_if_modifyHead, beq_iff_eq]
    obtain ⟨part, parts, hparts⟩ := List.exists_cons_of_ne_nil (splitOn_ne_nil mark cs)
    rw [segments, ih, hcons, hparts]
    rfl

theorem not_mem_segments {mark : Char} {part : List Char} (h : part ∈ segments mark cs) :
    mark ∉ part := by
  induction cs generalizing part with
  | nil =>
    rw [segments, List.mem_singleton] at h
    rw [h]
    exact List.not_mem_nil
  | cons c cs ih =>
    rw [segments] at h
    split at h
    · rcases List.mem_cons.1 h with rfl | h
      · exact List.not_mem_nil
      · exact ih h
    · next hmark =>
      split at h
      · rw [List.mem_singleton.1 h, List.mem_singleton]
        exact Ne.symm hmark
      · next part' parts hparts =>
        rw [hparts] at ih
        rcases List.mem_cons.1 h with rfl | h
        · exact fun hmem =>
            (List.mem_cons.1 hmem).elim (fun heq => hmark heq.symm) (ih List.mem_cons_self)
        · exact ih (List.mem_cons_of_mem part' h)

/-- **The parts between marks have none, and with marks between them they make up the text.** -/
theorem segments_eq_iff {mark : Char} {parts : List (List Char)} : segments mark cs = parts ↔
    [mark].intercalate parts = cs ∧ (∀ part ∈ parts, mark ∉ part) ∧ parts ≠ [] := by
  constructor
  · rintro rfl
    refine ⟨by rw [segments_eq_splitOn, List.intercalate_splitOn], fun _ => not_mem_segments, ?_⟩
    rw [segments_eq_splitOn]
    exact splitOn_ne_nil mark cs
  · rintro ⟨rfl, hparts, hne⟩
    rw [segments_eq_splitOn, List.splitOn_intercalate mark hparts hne]

/-- A beginning is dropped once. -/
theorem dropStart_eq_iff {start : List Char} :
    dropStart start cs = t ↔ cs = start ++ t ∨ t = cs ∧ ¬start <+: cs := by
  rw [dropStart]
  split
  · next hstart =>
    obtain ⟨rest, rfl⟩ := List.isPrefixOf_iff_prefix.1 hstart
    rw [List.drop_left]
    constructor
    · rintro rfl
      exact Or.inl rfl
    · rintro (heq | ⟨-, hnot⟩)
      · exact List.append_cancel_left heq
      · exact absurd (List.prefix_append start rest) hnot
  · next hstart =>
    have hnot : ¬start <+: cs := fun hprefix => hstart (List.isPrefixOf_iff_prefix.2 hprefix)
    constructor
    · rintro rfl
      exact Or.inr ⟨rfl, hnot⟩
    · rintro (rfl | ⟨rfl, -⟩)
      · exact absurd (List.prefix_append start t) hnot
      · rfl

/-! ## Numbers -/

/-- A text that stands for a number: decimal digits, at least one, with or without a plus
in front. -/
def Numeral (cs : List Char) (n : Nat) : Prop :=
  ∃ ds, (cs = ds ∨ cs = '+' :: ds) ∧ ds ≠ [] ∧ (∀ c ∈ ds, c.isDigit = true) ∧
    n = Nat.ofDigits 10 (ds.reverse.map fun c => c.toNat - '0'.toNat)

theorem digitsValue_eq (cs : List Char) :
    digitsValue cs = Nat.ofDigits 10 (cs.reverse.map fun c => c.toNat - '0'.toNat) := by
  rw [digitsValue, Nat.ofDigits_eq_foldr, List.foldr_map, List.foldr_reverse]
  refine congrFun (congrFun (congrArg _ ?_) _) _
  funext n c
  exact Nat.add_comm _ _

theorem read_digits_iff {limit n : Nat} {ds : List Char} :
    (if ds.isEmpty || !ds.all Char.isDigit then none
      else if digitsValue ds ≤ limit then some (digitsValue ds) else none) = some n ↔
        (ds ≠ [] ∧ (∀ c ∈ ds, c.isDigit = true) ∧ n = digitsValue ds) ∧ n ≤ limit := by
  split
  · next hbad =>
    refine iff_of_false (by simp) fun h => ?_
    rcases Bool.or_eq_true_iff.1 hbad with hempty | hother
    · exact h.1.1 (List.isEmpty_iff.1 hempty)
    · rw [List.all_eq_true.2 h.1.2.1] at hother
      cases hother
  · next hgood =>
    simp only [Bool.or_eq_true, Bool.not_eq_true', not_or, List.isEmpty_iff, Bool.not_eq_false,
      List.all_eq_true] at hgood
    split
    · next hle => grind
    · next hgt => grind

/-- **What is read as a number**: a numeral, if the number is within the limit. -/
theorem decimal?_eq_some_iff {limit n : Nat} :
    decimal? limit cs = some n ↔ Numeral cs n ∧ n ≤ limit := by
  have hdigit : ('+' : Char).isDigit = false := by decide
  by_cases hplus : ∃ ds, cs = '+' :: ds
  · obtain ⟨ds, rfl⟩ := hplus
    refine read_digits_iff.trans (and_congr_left fun _ => ?_)
    rw [digitsValue_eq]
    constructor
    · exact fun h => ⟨ds, .inr rfl, h⟩
    · rintro ⟨ds', rfl | heq, h⟩
      · have hplus := h.2.1 '+' List.mem_cons_self
        rw [hdigit] at hplus
        cases hplus
      · cases heq
        exact h
  · have hread : decimal? limit cs = if cs.isEmpty || !cs.all Char.isDigit then none
        else if digitsValue cs ≤ limit then some (digitsValue cs) else none := by
      unfold decimal?
      split
      · next ds => exact absurd ⟨ds, rfl⟩ hplus
      · rfl
    rw [hread, read_digits_iff, digitsValue_eq]
    refine and_congr_left fun _ => ?_
    constructor
    · exact fun h => ⟨cs, .inl rfl, h⟩
    · rintro ⟨ds', rfl | heq, h⟩
      · exact h
      · exact absurd ⟨ds', heq⟩ hplus

end RevisionLog.Text
