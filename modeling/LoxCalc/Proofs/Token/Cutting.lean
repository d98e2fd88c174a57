import LoxCalc.Token.Segment

/-!
# Texts put together and cut apart

The text of a segment is cut off again as this segment if what follows does not
extend it.  What may follow depends on the segment: nothing extends a bracket, a
blank or a string, an equals sign extends some operators, and a number and a word
go on with more of their characters.  **One space, closing parenthesis or comma
separates everything** (`Separated`).

The lemmas `segments_…` say this for one kind of segment each; the text that
follows stands on both sides of them, so that they can be applied one after the
other.
-/

namespace LoxCalc

open Segment

theorem segments_of_cut {c : Char} {more rest : List Char} {s : Segment}
    (h : cut c more = ⟨s, rest⟩) : segments (c :: more) = s :: segments rest := by
  rw [segments, h]

/-! ### What follows -/

/-- Whether a text cannot extend any segment before it: it is empty, or it begins
with a space, a closing parenthesis or a comma. -/
def Separated : List Char → Prop
  | [] => True
  | c :: _ => c = ' ' ∨ c = ')' ∨ c = ','

def NotBegun (p : Char → Bool) : List Char → Prop
  | [] => True
  | c :: _ => p c = false

theorem Separated.notBegun {p : Char → Bool} {rest : List Char} (h : Separated rest)
    (hspace : p ' ' = false) (hparen : p ')' = false) (hcomma : p ',' = false) :
    NotBegun p rest := by
  cases rest with
  | nil => trivial
  | cons c rest => rcases h with rfl | rfl | rfl <;> assumption

section Runs

variable {p : Char → Bool} {run rest : List Char}

theorem takeWhile_of_notBegun (h : NotBegun p rest) : rest.takeWhile p = [] := by
  cases rest with
  | nil => rfl
  | cons c rest =>
    have hc : p c = false := h
    rw [List.takeWhile_cons, hc]
    rfl

theorem dropWhile_of_notBegun (h : NotBegun p rest) : rest.dropWhile p = rest := by
  cases rest with
  | nil => rfl
  | cons c rest =>
    have hc : p c = false := h
    rw [List.dropWhile_cons, hc]
    rfl

theorem takeWhile_run (hrun : ∀ c ∈ run, p c = true) (h : NotBegun p rest) :
    (run ++ rest).takeWhile p = run := by
  rw [List.takeWhile_append_of_pos hrun, takeWhile_of_notBegun h, List.append_nil]

theorem dropWhile_run (hrun : ∀ c ∈ run, p c = true) (h : NotBegun p rest) :
    (run ++ rest).dropWhile p = rest := by
  rw [List.dropWhile_append_of_pos hrun, dropWhile_of_notBegun h]

end Runs

/-! ### One segment -/

theorem segments_punctuation {c : Char} {kind : Kind} (h : punctuation? c = some kind)
    (rest : List Char) : segments (c :: rest) = .symbol kind :: segments rest := by
  refine segments_of_cut ?_
  rw [cut, h]

theorem segments_space (rest : List Char) :
    segments (' ' :: rest) = .blank ' ' :: segments rest :=
  segments_of_cut rfl

theorem cutExtensible_of_notBegun {rest : List Char} (h : NotBegun (· == '=') rest)
    (longer shorter : Kind) : cutExtensible longer shorter rest = ⟨.symbol shorter, rest⟩ := by
  unfold cutExtensible
  split
  · exact absurd h (by simp [NotBegun])
  · rfl

theorem segments_bang {rest : List Char} (h : NotBegun (· == '=') rest) :
    segments ('!' :: rest) = .symbol .bang :: segments rest :=
  segments_of_cut (cutExtensible_of_notBegun h .bangEqual .bang)

theorem cutSlash_of_notBegun {rest : List Char} (h : NotBegun (· == '/') rest) :
    cutSlash rest = ⟨.symbol .slash, rest⟩ := by
  unfold cutSlash
  split
  · exact absurd h (by simp [NotBegun])
  · rfl

theorem segments_slash {rest : List Char} (h : NotBegun (· == '/') rest) :
    segments ('/' :: rest) = .symbol .slash :: segments rest :=
  segments_of_cut (cutSlash_of_notBegun h)

theorem cutQuote_of_notMem {body : List Char} (h : '"' ∉ body) (rest : List Char) :
    cutQuote (body ++ '"' :: rest) = ⟨.string body, rest⟩ := by
  have hquote : NotBegun (fun c => decide (c ≠ '"')) ('"' :: rest) := rfl
  have hrun : ∀ c ∈ body, decide (c ≠ '"') = true := by
    intro c hc
    exact decide_eq_true fun heq => h (heq ▸ hc)
  rw [cutQuote, takeWhile_run hrun hquote, dropWhile_run hrun hquote]

/-- **A string is cut off at its second quote**, whatever follows. -/
theorem segments_string {body : List Char} (h : '"' ∉ body) (rest : List Char) :
    segments ('"' :: (body ++ '"' :: rest)) = .string body :: segments rest :=
  segments_of_cut (cutQuote_of_notMem h rest)

theorem cut_of_isWordCharacter {c : Char} (h : isWordCharacter c = true) (more : List Char) :
    cut c more =
      if c.isDigit then
        cutFraction (c :: more.takeWhile Char.isDigit) (more.dropWhile Char.isDigit)
      else ⟨.word (c :: more.takeWhile isWordCharacter), more.dropWhile isWordCharacter⟩ := by
  have hpunctuation : punctuation? c = none := by
    unfold punctuation?
    split <;> first | exact absurd h (by decide) | rfl
  have hextensible : extensible? c = none := by
    unfold extensible?
    split <;> first | exact absurd h (by decide) | rfl
  have hslash : c ≠ '/' := fun heq => absurd h (by rw [heq]; decide)
  have hquote : c ≠ '"' := fun heq => absurd h (by rw [heq]; decide)
  have hblank : isBlank c = false := by
    rw [Bool.eq_false_iff]
    intro hblank
    simp only [isBlank, Bool.or_eq_true, beq_iff_eq] at hblank
    rcases hblank with ((rfl | rfl) | rfl) | rfl <;> exact absurd h (by decide)
  rw [cut, hpunctuation, hextensible]
  simp only [if_neg hslash, hblank, if_neg hquote, Bool.false_eq_true, if_false]
  by_cases hdigit : c.isDigit = true
  · rw [if_pos hdigit, if_pos hdigit]
  · have hletter : isLetter c = true := by
      rw [isWordCharacter, Bool.eq_false_iff.mpr hdigit, Bool.or_false] at h
      exact h
    rw [if_neg hdigit, if_neg hdigit, if_pos hletter]

theorem cutFraction_nil {whole rest : List Char} (h : NotBegun (· == '.') rest) :
    cutFraction whole rest = ⟨.number whole [], rest⟩ := by
  unfold cutFraction
  split
  · exact absurd h (by simp [NotBegun])
  · rfl

theorem cutFraction_cons {d : Char} {whole more rest : List Char} (hd : d.isDigit = true)
    (hmore : ∀ c ∈ more, c.isDigit = true) (h : NotBegun Char.isDigit rest) :
    cutFraction whole ('.' :: d :: (more ++ rest)) = ⟨.number whole (d :: more), rest⟩ := by
  rw [cutFraction, if_pos hd, takeWhile_run hmore h, dropWhile_run hmore h]

/-- **A number is cut off with all its digits**, where neither a digit nor a point
follows. -/
theorem segments_number {whole fraction rest : List Char} (hne : whole ≠ [])
    (hdigits : ∀ c ∈ whole ++ fraction, c.isDigit = true) (hdigit : NotBegun Char.isDigit rest)
    (hpoint : NotBegun (· == '.') rest) :
    segments ((Segment.number whole fraction).text ++ rest) =
      .number whole fraction :: segments rest := by
  cases whole with
  | nil => exact absurd rfl hne
  | cons c whole =>
    have hc : c.isDigit = true := hdigits c (by simp)
    have hwhole : ∀ d ∈ whole, d.isDigit = true := fun d hd => hdigits d (by simp [hd])
    have hcut : ∀ more, cut c more =
        cutFraction (c :: more.takeWhile Char.isDigit) (more.dropWhile Char.isDigit) := by
      intro more
      rw [cut_of_isWordCharacter (by rw [isWordCharacter, hc, Bool.or_true]), if_pos hc]
    cases fraction with
    | nil =>
      show segments (c :: (whole ++ rest)) = _
      refine segments_of_cut ?_
      rw [hcut, takeWhile_run hwhole hdigit, dropWhile_run hwhole hdigit, cutFraction_nil hpoint]
    | cons d more =>
      have hd : d.isDigit = true := hdigits d (by simp)
      have hmore : ∀ c ∈ more, c.isDigit = true := fun c hc => hdigits c (by simp [hc])
      have hpointed : NotBegun Char.isDigit ('.' :: d :: (more ++ rest)) := rfl
      have htext : (Segment.number (c :: whole) (d :: more)).text ++ rest =
          c :: (whole ++ '.' :: d :: (more ++ rest)) := by simp [Segment.text]
      rw [htext]
      refine segments_of_cut ?_
      rw [hcut, takeWhile_run hwhole hpointed, dropWhile_run hwhole hpointed,
        cutFraction_cons hd hmore hdigit]

/-- **A word is cut off with all its characters.** -/
theorem segments_word {c : Char} {more rest : List Char} (hc : isLetter c = true)
    (hdigit : c.isDigit = false) (hmore : ∀ d ∈ more, isWordCharacter d = true)
    (h : NotBegun isWordCharacter rest) :
    segments (c :: (more ++ rest)) = .word (c :: more) :: segments rest := by
  refine segments_of_cut ?_
  rw [cut_of_isWordCharacter (by rw [isWordCharacter, hc, Bool.true_or]), takeWhile_run hmore h,
    dropWhile_run hmore h, hdigit]
  rfl

end LoxCalc
