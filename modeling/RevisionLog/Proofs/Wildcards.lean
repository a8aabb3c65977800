import RevisionLog.Proofs.Selection

/-!
# What a pattern means

A pattern is given its meaning by rules, one for each kind of character in it, and apart from the
search that tries the runs. By these rules an escaped text takes from a name as many characters as
it has itself, one after the other, and whatever stands behind it in the pattern has to fit the
rest. So the backslashes, the wildcards and the letters of a text stand for themselves, whatever
follows them.

* `Pattern.Alike` — characters that are the same up to the case of an ASCII letter.
* `Pattern.Fits` — the rules of patterns.
* `Pattern.finds_iff_fits` — the search finds a fit exactly where the rules have one.
* `Pattern.fits_escape_append` — an escaped text takes characters like its own, and no others.
* `Pattern.escape_exact` — the pattern of a text selects the names that begin with it, up to the
  case of letters.
-/

namespace RevisionLog

namespace Pattern

/-! ## The rules -/

/-- The same character, or the same letter of the ASCII range in the other case. The small letters
stand 32 places behind the capitals. -/
def Alike (a b : Char) : Prop :=
  a = b ∨ a.isUpper ∧ b.toNat = a.toNat + 32 ∨ b.isUpper ∧ a.toNat = b.toNat + 32

/-- The rules of patterns. A backslash with nothing behind it fits nothing. -/
inductive Fits : List Char → List Char → Prop
  | nil : Fits [] []
  | taken {c d : Char} {pattern name : List Char} (halike : Alike c d) (hrest : Fits pattern name) :
      Fits ('\\' :: c :: pattern) (d :: name)
  | one {d : Char} {pattern name : List Char} (hrest : Fits pattern name) :
      Fits ('_' :: pattern) (d :: name)
  | runEnd {pattern name : List Char} (hrest : Fits pattern name) : Fits ('%' :: pattern) name
  | runMore {d : Char} {pattern name : List Char} (hrest : Fits ('%' :: pattern) name) :
      Fits ('%' :: pattern) (d :: name)
  | plain {c d : Char} {pattern name : List Char} (hplain : c ≠ '%' ∧ c ≠ '_' ∧
      c ≠ '\\') (halike : Alike c d) (hrest : Fits pattern name) : Fits (c :: pattern) (d :: name)

variable {pattern name rest cs : List Char}

/-! ## Letters -/

/-- Characters that are one in small letters are the same up to the case of an ASCII letter. -/
theorem sameLetter_iff {a b : Char} : sameLetter a b = true ↔ Alike a b := by
  have heq : ∀ c d : Char, c = d ↔ c.toNat = d.toNat := fun c d => ⟨congrArg _, Char.toNat_inj.1⟩
  rw [sameLetter, decide_eq_true_eq, heq, toNat_toLower, toNat_toLower, Alike, heq]
  simp only [isUpper_iff]
  split <;> split <;> omega

/-! ## The search -/

/-- A literal takes one character like its own. -/
theorem covers_literal {c : Char} {ps : List Piece} :
    covers sameLetter (.literal c :: ps) name = true ↔
      ∃ d name', name = d :: name' ∧ Alike c d ∧ covers sameLetter ps name' = true := by
  cases name with
  | nil => simp [covers]
  | cons d name' => simp [covers, sameLetter_iff]

/-- A run takes nothing, or one character and then as a run does. -/
theorem covers_run_cons {ps : List Piece} {d : Char} :
    covers sameLetter (.run :: ps) (d :: name) = true ↔
      covers sameLetter ps (d :: name) = true ∨ covers sameLetter (.run :: ps) name = true := by
  simp only [covers, suffixes, List.any_cons, Bool.or_eq_true]

theorem covers_run_of_covers {ps : List Piece} (h : covers sameLetter ps name = true) :
    covers sameLetter (.run :: ps) name = true :=
  List.any_eq_true.2 ⟨name, by cases name <;> exact List.mem_cons_self, h⟩

theorem Fits.exists_pieces? (h : Fits pattern name) :
    ∃ ps, pieces? pattern = some ps ∧ covers sameLetter ps name = true := by
  induction h with
  | nil => exact ⟨[], rfl, rfl⟩
  | taken halike _ ih =>
    obtain ⟨ps, hps, hcovers⟩ := ih
    exact ⟨_, by rw [pieces?, hps]; rfl, covers_literal.2 ⟨_, _, rfl, halike, hcovers⟩⟩
  | one _ ih =>
    obtain ⟨ps, hps, hcovers⟩ := ih
    exact ⟨_, by rw [pieces?, hps]; rfl, hcovers⟩
  | runEnd _ ih =>
    obtain ⟨ps, hps, hcovers⟩ := ih
    exact ⟨.run :: ps, by rw [pieces?, hps]; rfl, covers_run_of_covers hcovers⟩
  | runMore _ ih =>
    obtain ⟨ps, hps, hcovers⟩ := ih
    rw [pieces?, Option.map_eq_some_iff] at hps
    obtain ⟨qs, hqs, rfl⟩ := hps
    exact ⟨.run :: qs, by rw [pieces?, hqs]; rfl, covers_run_cons.2 (.inr hcovers)⟩
  | plain hplain halike _ ih =>
    obtain ⟨ps, hps, hcovers⟩ := ih
    exact ⟨_, by rw [pieces?_plain hplain, hps]; rfl, covers_literal.2 ⟨_, _, rfl, halike, hcovers⟩⟩

theorem fits_run_of_covers {ps : List Piece}
    (hrest : ∀ name, covers sameLetter ps name = true → Fits pattern name)
    (h : covers sameLetter (.run :: ps) name = true) : Fits ('%' :: pattern) name := by
  induction name with
  | nil =>
    simp only [covers, suffixes, List.any_cons, List.any_nil, Bool.or_false] at h
    exact .runEnd (hrest _ h)
  | cons d name ih =>
    rcases covers_run_cons.1 h with hend | hmore
    · exact .runEnd (hrest _ hend)
    · exact .runMore (ih hmore)

theorem fits_of_pieces? {ps : List Piece} (hpieces : pieces? pattern = some ps)
    (h : covers sameLetter ps name = true) : Fits pattern name := by
  induction pattern using pieces?.induct generalizing ps name with
  | case1 =>
    cases hpieces
    obtain rfl : name = [] := List.isEmpty_iff.1 h
    exact .nil
  | case2 => cases hpieces
  | case3 c pattern ih =>
    obtain ⟨qs, hqs, rfl⟩ := Option.map_eq_some_iff.1 hpieces
    obtain ⟨d, name', rfl, halike, hcovers⟩ := covers_literal.1 h
    exact .taken halike (ih hqs hcovers)
  | case4 pattern ih =>
    -- the rest of the name that the pieces behind the run take is not known, so the run goes
    -- through the name itself
    obtain ⟨qs, hqs, rfl⟩ := Option.map_eq_some_iff.1 hpieces
    exact fits_run_of_covers (fun _ => ih hqs) h
  | case5 pattern ih =>
    obtain ⟨qs, hqs, rfl⟩ := Option.map_eq_some_iff.1 hpieces
    cases name with
    | nil => cases h
    | cons d name' => exact .one (ih hqs h)
  | case6 c pattern hlone hpair hrun hone ih =>
    have hplain : c ≠ '%' ∧ c ≠ '_' ∧ c ≠ '\\' := by
      refine ⟨hrun, hone, fun htaken => ?_⟩
      cases pattern with
      | nil => exact hlone htaken rfl
      | cons d ds => exact hpair d ds htaken rfl
    rw [pieces?_plain hplain] at hpieces
    obtain ⟨qs, hqs, rfl⟩ := Option.map_eq_some_iff.1 hpieces
    obtain ⟨d, name', rfl, halike, hcovers⟩ := covers_literal.1 h
    exact .plain hplain halike (ih hqs hcovers)

theorem fits_iff :
    Fits pattern name ↔ ∃ ps, pieces? pattern = some ps ∧ covers sameLetter ps name = true :=
  ⟨Fits.exists_pieces?, fun ⟨_, hps, hcovers⟩ => fits_of_pieces? hps hcovers⟩

theorem untilNul_eq_self (hnul : '\x00' ∉ cs) : untilNul cs = cs := by
  have happend := untilNul_append hnul []
  have hnil : untilNul [] = [] := rfl
  rwa [hnil, List.append_nil] at happend

/-- **The search finds a fit exactly where the rules have one.** -/
theorem finds_iff_fits (hpattern : '\x00' ∉ pattern) (hname : '\x00' ∉ name) :
    finds sameLetter pattern name = true ↔ Fits pattern name := by
  have hwhole : (name.takeWhile fun c => !sameLetter '\x00' c) = name := by
    simp only [sameLetter_nul, ← decide_not]
    exact untilNul_eq_self hname
  rw [finds, untilNul_eq_self hpattern, hwhole, fits_iff]
  cases pieces? pattern with
  | none => simp
  | some ps => simp

/-! ## Escaped texts -/

/-- An escaped character takes one character like it, whatever stands behind it in the pattern. -/
theorem fits_escape_cons {c : Char} : Fits (escape (c :: cs) ++ rest) name ↔
    ∃ d name', name = d :: name' ∧ Alike c d ∧ Fits (escape cs ++ rest) name' := by
  by_cases hspecial : isSpecial c = true
  · rw [escape, if_pos hspecial, List.cons_append, List.cons_append]
    constructor
    · intro h
      cases h with
      | taken halike hrest => exact ⟨_, _, rfl, halike, hrest⟩
      | plain hplain => exact absurd rfl hplain.2.2
    · rintro ⟨d, name', rfl, halike, hrest⟩
      exact .taken halike hrest
  · rw [escape, if_neg hspecial, List.cons_append]
    simp only [isSpecial, Bool.or_eq_true, decide_eq_true_eq, not_or] at hspecial
    obtain ⟨⟨hrun, hone⟩, htaken⟩ := hspecial
    constructor
    · intro h
      generalize escape cs ++ rest = pattern at h ⊢
      cases h with
      | plain _ halike hrest => exact ⟨_, _, rfl, halike, hrest⟩
      | taken => exact absurd rfl htaken
      | one => exact absurd rfl hone
      | runEnd | runMore => exact absurd rfl hrun
    · rintro ⟨d, name', rfl, halike, hrest⟩
      exact .plain ⟨hrun, hone, htaken⟩ halike hrest

/-- **An escaped text takes characters like its own, and no others.** What stands behind it has to
fit the rest. -/
theorem fits_escape_append : Fits (escape cs ++ rest) name ↔
    ∃ front back, name = front ++ back ∧ List.Forall₂ Alike cs front ∧ Fits rest back := by
  induction cs generalizing name with
  | nil =>
    constructor
    · intro h
      exact ⟨[], name, rfl, .nil, h⟩
    · rintro ⟨front, back, rfl, hfront, hrest⟩
      cases hfront
      exact hrest
  | cons c cs ih =>
    rw [fits_escape_cons]
    constructor
    · rintro ⟨d, name', rfl, halike, hrest⟩
      obtain ⟨front, back, rfl, hfront, hback⟩ := ih.1 hrest
      exact ⟨d :: front, back, rfl, .cons halike hfront, hback⟩
    · rintro ⟨front, back, rfl, hfront, hback⟩
      cases hfront with
      | cons halike hfront => exact ⟨_, _, rfl, halike, ih.2 ⟨_, _, rfl, hfront, hback⟩⟩

theorem fits_run (name : List Char) : Fits ['%'] name := by
  induction name with
  | nil => exact .runEnd .nil
  | cons d name ih => exact .runMore ih

theorem nul_mem_escape (h : '\x00' ∈ escape cs) : '\x00' ∈ cs := by
  induction cs with
  | nil => cases h
  | cons c cs ih =>
    rw [escape] at h
    split at h <;> simp only [List.mem_cons] at h ⊢
    · rcases h with h | h | h
      · exact absurd h (by decide)
      · exact .inl h
      · exact .inr (ih h)
    · exact h.imp_right ih

/-- **The pattern of a text is exact.** The pattern is taken apart into the characters of the text,
each of which has to be met by one character, and a run behind them. So it selects a name if the
name begins with the text up to the case of ASCII letters, and no other, both by the search and by
the rules. -/
theorem escape_exact (start : String) (name : List Char) (hstart : '\x00' ∉ start.toList)
    (hname : '\x00' ∉ name) :
    pieces? (ofPrefix start).toList = some (literals start.toList ++ [.run]) ∧
      (finds sameLetter (ofPrefix start).toList name = true ↔ Fits (ofPrefix start).toList name) ∧
      (finds sameLetter (ofPrefix start).toList name = true ↔
        ∃ front back, name = front ++ back ∧ List.Forall₂ Alike start.toList front) := by
  have hpattern : '\x00' ∉ escape start.toList ++ ['%'] := by
    intro hmem
    rcases List.mem_append.1 hmem with hmem | hmem
    · exact hstart (nul_mem_escape hmem)
    · exact absurd hmem (by decide)
  rw [ofPrefix, String.toList_ofList]
  have hfits := finds_iff_fits hpattern hname
  refine ⟨?_, hfits, hfits.trans (fits_escape_append.trans ?_)⟩
  · have hpieces := pieces?_escape_append start.toList ['%']
    have hrun : pieces? ['%'] = some [.run] := rfl
    rwa [hrun, Option.map_some] at hpieces
  · constructor
    · rintro ⟨front, back, hname, hfront, -⟩
      exact ⟨front, back, hname, hfront⟩
    · rintro ⟨front, back, hname, hfront⟩
      exact ⟨front, back, hname, hfront, fits_run back⟩

/-- A text of every special character, with a letter of two bytes and a backslash at its end,
against a name that begins with it in the other case. -/
theorem escape_exact_special : ∃ (start : String) (name : List Char), start = "\\\\%a_\\é\\" ∧
    name = "\\\\%A_\\é\\z".toList ∧ '\x00' ∉ start.toList ∧ '\x00' ∉ name ∧
    (ofPrefix start).toList = "\\\\\\\\\\%a\\_\\\\é\\\\%".toList ∧
    pieces? (ofPrefix start).toList = some (literals start.toList ++ [.run]) ∧
    finds sameLetter (ofPrefix start).toList name = true ∧
    ∃ front back, name = front ++ back ∧ List.Forall₂ Alike start.toList front := by
  have hstart : '\x00' ∉ "\\\\%a_\\é\\".toList := by decide
  have hname : '\x00' ∉ "\\\\%A_\\é\\z".toList := by decide
  have hselects : finds sameLetter (ofPrefix "\\\\%a_\\é\\").toList "\\\\%A_\\é\\z".toList =
    true := by decide +kernel
  obtain ⟨hpieces, -, hbegins⟩ := escape_exact _ _ hstart hname
  exact ⟨_, _, rfl, rfl, hstart, hname, by decide +kernel, hpieces, hselects, hbegins.1 hselects⟩

end Pattern

end RevisionLog
