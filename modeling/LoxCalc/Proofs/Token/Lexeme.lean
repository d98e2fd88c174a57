import Mathlib.Data.List.TakeWhile
import LoxCalc.Proofs.Token.Cutting

/-!
# The longest lexeme

`Segment.IsLexeme` says what the lexemes of the language are, one class after the
other and without regard to any text around them.  `Munched source ss` says what it
means to cut a source into the longest of them: every segment is the longest lexeme
that the rest of the source begins with, and where no lexeme begins it is a quote with
all that follows, or a single character.

**Cutting is munching** (`munched_iff`).  It rests on two facts: whatever lexeme the
source begins with, the cut is at least as long (`length_le_length_cut`); and a lexeme
on its own is cut as itself (`segments_text`), so lexemes of the same text are the same.
-/

namespace LoxCalc

/-- The operators and punctuation marks: the kinds with a single spelling that are no
keywords. -/
def Kind.isSymbol (k : Kind) : Bool :=
  k.spelling?.isSome && !keywords.contains k

namespace Segment

/-! ### Lexemes -/

def Digit (c : Char) : Prop :=
  '0' ≤ c ∧ c ≤ '9'

def Letter (c : Char) : Prop :=
  ('a' ≤ c ∧ c ≤ 'z') ∨ ('A' ≤ c ∧ c ≤ 'Z') ∨ c = '_'

inductive IsLexeme : Segment → Prop
  | blank {c : Char} (h : c = ' ' ∨ c = '\t' ∨ c = '\r' ∨ c = '\n') : IsLexeme (.blank c)
  | comment {body : List Char} (h : '\n' ∉ body) : IsLexeme (.comment body)
  | symbol {kind : Kind} (h : kind.isSymbol = true) : IsLexeme (.symbol kind)
  | string {body : List Char} (h : '"' ∉ body) : IsLexeme (.string body)
  /-- Without digits after the point there is no point. -/
  | number {whole fraction : List Char} (hne : whole ≠ [])
      (h : ∀ c ∈ whole ++ fraction, Digit c) : IsLexeme (.number whole fraction)
  | word {c : Char} {more : List Char} (hc : Letter c)
      (hmore : ∀ d ∈ more, Letter d ∨ Digit d) : IsLexeme (.word (c :: more))

theorem digit_iff {c : Char} : Digit c ↔ c.isDigit = true := by
  simp [Digit, Char.isDigit, Char.le_def, UInt32.le_iff_toNat_le]

theorem letter_iff {c : Char} : Letter c ↔ isLetter c = true := by
  have hletter : isLetter c =
      ((decide (c.val ≥ 'A'.val ∧ c.val ≤ 'Z'.val) ||
        (decide (c.val ≥ 'a'.val) && decide (c.val ≤ 'z'.val))) || c == '_') := rfl
  rw [hletter, Letter, Bool.or_eq_true, Bool.or_eq_true, Bool.and_eq_true, decide_eq_true_eq,
    decide_eq_true_eq, decide_eq_true_eq, beq_iff_eq]
  constructor
  · rintro (hlower | hupper | hunderscore)
    · exact Or.inl (Or.inr hlower)
    · exact Or.inl (Or.inl hupper)
    · exact Or.inr hunderscore
  · rintro ((hupper | hlower) | hunderscore)
    · exact Or.inr (Or.inl hupper)
    · exact Or.inl hlower
    · exact Or.inr (Or.inr hunderscore)

theorem isDigit_of_letter {c : Char} (h : Letter c) : c.isDigit = false := by
  simp [Letter, Char.le_def, UInt32.le_iff_toNat_le] at h
  simp [Char.isDigit, UInt32.le_iff_toNat_le]
  rcases h with h | h | rfl
  · omega
  · omega
  · decide

theorem isWordCharacter_iff {c : Char} : Letter c ∨ Digit c ↔ isWordCharacter c = true := by
  rw [letter_iff, digit_iff, isWordCharacter, Bool.or_eq_true]

theorem isBlank_iff {c : Char} :
    (c = ' ' ∨ c = '\t' ∨ c = '\r' ∨ c = '\n') ↔ isBlank c = true := by
  simp [isBlank, or_assoc]

/-! ### A lexeme on its own -/

theorem segments_single {c : Char} {s : Segment} (h : cut c [] = ⟨s, []⟩) : segments [c] = [s] := by
  rw [segments_of_cut h, segments]

theorem segments_comment {body : List Char} (h : '\n' ∉ body) :
    segments ('/' :: '/' :: body) = [.comment body] := by
  have hrun : ∀ c ∈ body, decide (c ≠ '\n') = true := by
    intro c hc
    exact decide_eq_true fun heq => h (heq ▸ hc)
  have hnil : NotBegun (fun c => decide (c ≠ '\n')) [] := trivial
  have hcut : cut '/' ('/' :: body) = ⟨.comment body, []⟩ := by
    show cutSlash ('/' :: body) = _
    rw [cutSlash]
    have htake := takeWhile_run hrun hnil
    have hdrop := dropWhile_run hrun hnil
    rw [List.append_nil] at htake hdrop
    rw [htake, hdrop]
  rw [segments_of_cut hcut, segments]

theorem segments_symbol {kind : Kind} (h : kind.isSymbol = true) :
    segments kind.spelling = [.symbol kind] := by
  have hpair : ∀ {c : Char} {longer : Kind}, cut c ['='] = ⟨.symbol longer, []⟩ →
      segments [c, '='] = [.symbol longer] := by
    intro c longer hcut
    rw [segments_of_cut hcut, segments]
  cases kind <;> first
    | exact absurd h (by decide)
    | exact segments_single rfl
    | exact hpair rfl

theorem symbol_inj {k k' : Kind} (hk : k.isSymbol = true) (hk' : k'.isSymbol = true)
    (h : k.spelling = k'.spelling) : k = k' := by
  have hself := segments_symbol hk
  rw [h, segments_symbol hk'] at hself
  exact (Segment.symbol.inj (List.cons.inj hself).1).symm

/-- **A lexeme on its own is cut as itself.** -/
theorem segments_text {s : Segment} (h : s.IsLexeme) : segments s.text = [s] := by
  have hnil : segments [] = [] := by rw [segments]
  cases h with
  | blank h => rcases h with rfl | rfl | rfl | rfl <;> exact segments_single rfl
  | comment h => exact segments_comment h
  | symbol h => exact segments_symbol h
  | string h => rw [text, segments_string h [], hnil]
  | @number whole fraction hne h =>
    have hdigits : ∀ c ∈ whole ++ fraction, c.isDigit = true := fun c hc => digit_iff.mp (h c hc)
    have hcut : segments ((Segment.number whole fraction).text ++ []) =
        .number whole fraction :: segments [] := segments_number hne hdigits trivial trivial
    rwa [List.append_nil, hnil] at hcut
  | @word c more hc hmore =>
    have hletter : isLetter c = true := letter_iff.mp hc
    have hword : segments (c :: (more ++ [])) = .word (c :: more) :: segments [] :=
      segments_word hletter (isDigit_of_letter hc)
        (fun d hd => isWordCharacter_iff.mp (hmore d hd)) trivial
    rwa [List.append_nil, hnil] at hword

theorem IsLexeme.eq_of_text_eq {s t : Segment} (hs : s.IsLexeme) (ht : t.IsLexeme)
    (h : s.text = t.text) : s = t := by
  have hself := segments_text hs
  rw [h, segments_text ht] at hself
  exact (List.cons.inj hself).1.symm

/-! ### No lexeme is longer than the cut -/

def begins (c : Char) : Bool :=
  (punctuation? c).isSome || (extensible? c).isSome || c == '/' || isBlank c || c == '"' ||
    isWordCharacter c

theorem IsLexeme.begins {s : Segment} (h : s.IsLexeme) :
    ∃ c more, s.text = c :: more ∧ begins c = true := by
  have hword : ∀ {c : Char}, isWordCharacter c = true → Segment.begins c = true := by
    intro c hc
    rw [Segment.begins, hc, Bool.or_true]
  cases h with
  | @blank c h =>
    have hblank : isBlank c = true := isBlank_iff.mp h
    exact ⟨c, [], rfl, by simp [Segment.begins, hblank]⟩
  | comment h => exact ⟨'/', _, rfl, rfl⟩
  | @symbol kind h =>
    cases kind <;> first
      | exact absurd h (by decide)
      | exact ⟨_, _, rfl, rfl⟩
  | string h => exact ⟨'"', _, rfl, rfl⟩
  | @number whole fraction hne h =>
    cases whole with
    | nil => exact absurd rfl hne
    | cons c whole =>
      have hc : isWordCharacter c = true := isWordCharacter_iff.mp (Or.inr (h c (by simp)))
      cases fraction with
      | nil => exact ⟨c, whole, rfl, hword hc⟩
      | cons d more => exact ⟨c, _, rfl, hword hc⟩
  | @word c more hc hmore =>
    exact ⟨c, more, rfl, hword (isWordCharacter_iff.mp (Or.inl hc))⟩

theorem text_cut_ne_nil (c : Char) (rest : List Char) : (cut c rest).segment.text ≠ [] := by
  intro hnil
  have htext := cut_text c rest
  have hle := length_cut_rest c rest
  rw [hnil, List.nil_append] at htext
  rw [htext, List.length_cons] at hle
  omega

theorem length_le_length_takeWhile {p : Char → Bool} {run : List Char}
    (hrun : ∀ c ∈ run, p c = true) (rest : List Char) :
    run.length ≤ ((run ++ rest).takeWhile p).length := by
  rw [List.takeWhile_append_of_pos hrun, List.length_append]
  exact Nat.le_add_right _ _

theorem length_le_length_cutFraction (whole rest : List Char) :
    whole.length ≤ (cutFraction whole rest).segment.text.length := by
  unfold cutFraction
  split
  · split
    · simp [text]
    · exact Nat.le_refl _
  · exact Nat.le_refl _

theorem length_number_le_length_cut {c : Char} {whole fraction rest : List Char}
    (h : ∀ d ∈ c :: whole ++ fraction, d.isDigit = true) {more : List Char}
    (htext : (Segment.number (c :: whole) fraction).text ++ rest = c :: more) :
    (Segment.number (c :: whole) fraction).text.length ≤ (cut c more).segment.text.length := by
  have hc : c.isDigit = true := h c (by simp)
  have hwhole : ∀ d ∈ whole, d.isDigit = true := fun d hd => h d (by simp [hd])
  rw [cut_of_isWordCharacter (by rw [isWordCharacter, hc, Bool.or_true]), if_pos hc]
  cases fraction with
  | nil =>
    obtain rfl : whole ++ rest = more := (List.cons.inj htext).2
    refine Nat.le_trans ?_ (length_le_length_cutFraction _ _)
    exact Nat.succ_le_succ (length_le_length_takeWhile hwhole rest)
  | cons d fraction =>
    have hd : d.isDigit = true := h d (by simp)
    have hfraction : ∀ e ∈ fraction, e.isDigit = true := fun e he => h e (by simp [he])
    obtain rfl : whole ++ '.' :: d :: (fraction ++ rest) = more := by
      simpa [text] using htext
    have hpoint : NotBegun Char.isDigit ('.' :: d :: (fraction ++ rest)) := rfl
    rw [takeWhile_run hwhole hpoint, dropWhile_run hwhole hpoint, cutFraction, if_pos hd]
    have hlength := length_le_length_takeWhile hfraction rest
    simp only [text, List.length_append, List.length_cons]
    omega

/-- **No lexeme is longer than the cut.** -/
theorem length_le_length_cut {s : Segment} (h : s.IsLexeme) {c : Char} {rest more : List Char}
    (htext : s.text ++ rest = c :: more) :
    s.text.length ≤ (cut c more).segment.text.length := by
  have hone : 1 ≤ (cut c more).segment.text.length :=
    List.length_pos_iff.mpr (text_cut_ne_nil c more)
  cases h with
  | blank h => exact hone
  | @comment body h =>
    obtain ⟨rfl, rfl⟩ := List.cons.inj htext
    have hrun : ∀ c ∈ body, decide (c ≠ '\n') = true := by
      intro c hc
      exact decide_eq_true fun heq => h (heq ▸ hc)
    exact Nat.succ_le_succ (Nat.succ_le_succ (length_le_length_takeWhile hrun rest))
  | @symbol kind h =>
    -- only four of them have a second character, an equals sign
    cases kind <;> first
      | exact absurd h (by decide)
      | exact hone
      | (obtain ⟨rfl, rfl⟩ := List.cons.inj htext; exact Nat.le_refl _)
  | @string body h =>
    obtain ⟨rfl, rfl⟩ := List.cons.inj htext
    have hcut : cut '"' (body ++ ['"'] ++ rest) = ⟨.string body, rest⟩ := by
      rw [List.append_assoc]
      exact cutQuote_of_notMem h rest
    exact Nat.le_of_eq (congrArg (fun k : Cut => k.segment.text.length) hcut).symm
  | @number whole fraction hne h =>
    cases whole with
    | nil => exact absurd rfl hne
    | cons d whole =>
      obtain rfl : d = c := by
        cases fraction <;> exact (List.cons.inj htext).1
      exact length_number_le_length_cut (fun e he => digit_iff.mp (h e he)) htext
  | @word d word hd hmore =>
    obtain ⟨rfl, rfl⟩ := List.cons.inj htext
    have hword : ∀ e ∈ word, isWordCharacter e = true :=
      fun e he => isWordCharacter_iff.mp (hmore e he)
    rw [cut_of_isWordCharacter (isWordCharacter_iff.mp (Or.inl hd)), isDigit_of_letter hd]
    exact Nat.succ_le_succ (length_le_length_takeWhile hword rest)

/-! ### The first segment -/

/-- The longest lexeme that a source begins with. -/
structure LongestLexeme (source : List Char) (s : Segment) : Prop where
  isLexeme : s.IsLexeme
  isPrefix : s.text <+: source
  longest : ∀ t : Segment, t.IsLexeme → t.text <+: source → t.text.length ≤ s.text.length

/-- What the first segment of a source has to be. -/
inductive IsFirst (source : List Char) : Segment → Prop
  | lexeme {s : Segment} (h : LongestLexeme source s) : IsFirst source s
  /-- A quote without a second one, with all that follows. -/
  | unclosed {body : List Char} (h : source = '"' :: body) (hbody : '"' ∉ body) :
      IsFirst source (.unclosed body)
  /-- A single other character, with which no lexeme begins. -/
  | stray {c : Char} {rest : List Char} (h : source = c :: rest) (hc : c ≠ '"')
      (hnone : ∀ t : Segment, t.IsLexeme → ¬ t.text <+: source) : IsFirst source (.stray c)

theorem isSymbol_of_punctuation? {c : Char} {kind : Kind} (h : punctuation? c = some kind) :
    kind.isSymbol = true := by
  unfold punctuation? at h
  split at h <;> cases h <;> rfl

theorem isSymbol_of_extensible? {c : Char} {longer shorter : Kind}
    (h : extensible? c = some (longer, shorter)) :
    longer.isSymbol = true ∧ shorter.isSymbol = true := by
  unfold extensible? at h
  split at h <;> cases h <;> exact ⟨rfl, rfl⟩

theorem notMem_takeWhile (d : Char) (rest : List Char) : d ∉ rest.takeWhile (· ≠ d) := by
  intro hmem
  simpa using List.mem_takeWhile_imp hmem

theorem isLexeme_cutFraction {whole : List Char} (hne : whole ≠ [])
    (hwhole : ∀ c ∈ whole, c.isDigit = true) (rest : List Char) :
    (cutFraction whole rest).segment.IsLexeme := by
  have hplain : (Segment.number whole []).IsLexeme := by
    refine .number hne fun c hc => digit_iff.mpr (hwhole c ?_)
    rwa [List.append_nil] at hc
  unfold cutFraction
  split
  · rename_i d more
    split
    · rename_i hd
      refine .number hne fun c hc => digit_iff.mpr ?_
      rcases List.mem_append.mp hc with hc | hc
      · exact hwhole c hc
      · rcases List.mem_cons.mp hc with rfl | hc
        · exact hd
        · exact List.mem_takeWhile_imp hc
    · exact hplain
  · exact hplain

/-- **What a cut is**: a lexeme, or what is left for a quote or a character that
begins none. -/
theorem cut_cases (c : Char) (rest : List Char) :
    (cut c rest).segment.IsLexeme ∨
      (c = '"' ∧ '"' ∉ rest ∧ (cut c rest).segment = .unclosed rest) ∨
      (begins c = false ∧ (cut c rest).segment = .stray c) := by
  unfold cut
  split
  · rename_i kind h
    exact Or.inl (.symbol (isSymbol_of_punctuation? h))
  rename_i hpunctuation
  split
  · rename_i longer shorter h
    obtain ⟨hlonger, hshorter⟩ := isSymbol_of_extensible? h
    unfold cutExtensible
    split
    · exact Or.inl (.symbol hlonger)
    · exact Or.inl (.symbol hshorter)
  rename_i hextensible
  split
  · unfold cutSlash
    split
    · exact Or.inl (.comment (notMem_takeWhile _ _))
    · exact Or.inl (.symbol rfl)
  rename_i hslash
  split
  · rename_i h
    exact Or.inl (.blank (isBlank_iff.mpr h))
  rename_i hblank
  split
  · rename_i h
    unfold cutQuote
    split
    · exact Or.inl (.string (notMem_takeWhile _ _))
    · rename_i hrest
      refine Or.inr (Or.inl ⟨h, fun hmem => ?_, rfl⟩)
      simpa using List.dropWhile_eq_nil_iff.mp hrest '"' hmem
  rename_i hquote
  split
  · rename_i h
    refine Or.inl (isLexeme_cutFraction (List.cons_ne_nil _ _) (fun d hd => ?_) _)
    rcases List.mem_cons.mp hd with rfl | hd
    · exact h
    · exact List.mem_takeWhile_imp hd
  rename_i hdigit
  split
  · rename_i h
    exact Or.inl (.word (letter_iff.mpr h) fun d hd =>
      isWordCharacter_iff.mpr (List.mem_takeWhile_imp hd))
  · rename_i hletter
    refine Or.inr (Or.inr ⟨?_, rfl⟩)
    have hno : punctuation? c = none := Option.eq_none_iff_forall_ne_some.mpr hpunctuation
    have hnone : extensible? c = none :=
      Option.eq_none_iff_forall_ne_some.mpr fun (longer, shorter) => hextensible longer shorter
    simp [begins, isWordCharacter, hno, hnone, hslash, hblank, hquote, hdigit, hletter]

/-- **The cut is the first segment.** -/
theorem isFirst_cut (c : Char) (rest : List Char) :
    IsFirst (c :: rest) (cut c rest).segment := by
  have hlongest : ∀ t : Segment, t.IsLexeme → t.text <+: c :: rest →
      t.text.length ≤ (cut c rest).segment.text.length := by
    rintro t ht ⟨more, hmore⟩
    exact length_le_length_cut ht hmore
  rcases cut_cases c rest with hlexeme | ⟨hc, hrest, hcut⟩ | ⟨hbegins, hcut⟩
  · exact .lexeme ⟨hlexeme, ⟨_, cut_text c rest⟩, hlongest⟩
  · rw [hcut]
    exact .unclosed (by rw [hc]) hrest
  · rw [hcut]
    refine .stray rfl ?_ fun t ht htext => ?_
    · rintro rfl
      cases hbegins
    · obtain ⟨d, more, hd, hdbegins⟩ := ht.begins
      obtain ⟨after, hafter⟩ := htext
      rw [hd] at hafter
      obtain ⟨rfl, -⟩ := List.cons.inj hafter
      rw [hbegins] at hdbegins
      cases hdbegins

theorem IsLexeme.not_prefix_of_unclosed {s : Segment} (h : s.IsLexeme) {body : List Char}
    (hbody : '"' ∉ body) : ¬ s.text <+: '"' :: body := by
  rintro ⟨after, hafter⟩
  obtain ⟨c, more, htext, -⟩ := h.begins
  have hself := segments_text h
  rw [htext] at hafter hself
  obtain ⟨rfl, hbody'⟩ := List.cons.inj hafter
  -- the text of the lexeme, cut on its own, would be a quote without a second one
  have hmore : '"' ∉ more := fun hmem => hbody (hbody' ▸ List.mem_append_left _ hmem)
  have hdrop : more.dropWhile (· ≠ '"') = [] :=
    List.dropWhile_eq_nil_iff.mpr fun d hd => decide_eq_true fun heq => hmore (heq ▸ hd)
  have hcut : cut '"' more = ⟨.unclosed more, []⟩ := by
    show cutQuote more = _
    rw [cutQuote, hdrop]
  rw [segments_of_cut hcut] at hself
  obtain ⟨rfl, -⟩ := List.cons.inj hself
  cases h

theorem LongestLexeme.unique {source : List Char} {s t : Segment} (hs : LongestLexeme source s)
    (ht : LongestLexeme source t) : s = t := by
  refine hs.isLexeme.eq_of_text_eq ht.isLexeme ?_
  have hlength : s.text.length = t.text.length :=
    Nat.le_antisymm (ht.longest s hs.isLexeme hs.isPrefix) (hs.longest t ht.isLexeme ht.isPrefix)
  have hprefix := List.prefix_of_prefix_length_le hs.isPrefix ht.isPrefix (Nat.le_of_eq hlength)
  exact hprefix.eq_of_length hlength

theorem IsFirst.unique {source : List Char} {s t : Segment} (hs : IsFirst source s)
    (ht : IsFirst source t) : s = t := by
  cases hs with
  | lexeme hs =>
    cases ht with
    | lexeme ht => exact hs.unique ht
    | unclosed h hbody => exact absurd (h ▸ hs.isPrefix) (hs.isLexeme.not_prefix_of_unclosed hbody)
    | stray _ _ hnone => exact absurd hs.isPrefix (hnone s hs.isLexeme)
  | unclosed h hbody =>
    cases ht with
    | lexeme ht => exact absurd (h ▸ ht.isPrefix) (ht.isLexeme.not_prefix_of_unclosed hbody)
    | unclosed h' _ =>
      rw [h] at h'
      rw [(List.cons.inj h').2]
    | stray h' hc _ =>
      rw [h] at h'
      exact absurd (List.cons.inj h').1.symm hc
  | stray h hc hnone =>
    cases ht with
    | lexeme ht => exact absurd ht.isPrefix (hnone t ht.isLexeme)
    | unclosed h' _ =>
      rw [h] at h'
      exact absurd (List.cons.inj h').1 hc
    | stray h' _ _ =>
      rw [h] at h'
      rw [(List.cons.inj h').1]

theorem IsFirst.text_ne_nil {source : List Char} {s : Segment} (h : IsFirst source s) :
    s.text ≠ [] := by
  cases h with
  | lexeme h =>
    obtain ⟨c, more, htext, -⟩ := h.isLexeme.begins
    rw [htext]
    exact List.cons_ne_nil _ _
  | unclosed _ _ => exact List.cons_ne_nil _ _
  | stray _ _ _ => exact List.cons_ne_nil _ _

end Segment

/-! ### Whole sources -/

open Segment

/-- A source as its segments: each is the first one of what is left. -/
inductive Munched : List Char → List Segment → Prop
  | nil : Munched [] []
  | cons {s : Segment} {rest : List Char} {ss : List Segment}
      (hfirst : IsFirst (s.text ++ rest) s) (hrest : Munched rest ss) :
      Munched (s.text ++ rest) (s :: ss)

namespace Munched

variable {source : List Char} {ss : List Segment}

/-- **Nothing is lost**: the segments make up the source. -/
theorem flatMap_text (h : Munched source ss) : ss.flatMap text = source := by
  induction h with
  | nil => rfl
  | cons _ _ ih => rw [List.flatMap_cons, ih]

theorem exists_isFirst (h : Munched source ss) : ∀ s ∈ ss, ∃ left, IsFirst left s := by
  induction h with
  | nil => exact fun _ hs => nomatch hs
  | cons hfirst _ ih => exact List.forall_mem_cons.mpr ⟨⟨_, hfirst⟩, ih⟩

theorem text_ne_nil (h : Munched source ss) : ∀ s ∈ ss, s.text ≠ [] := by
  intro s hs
  obtain ⟨left, hfirst⟩ := h.exists_isFirst s hs
  exact hfirst.text_ne_nil

end Munched

theorem munched_segments (source : List Char) : Munched source (segments source) := by
  fun_induction segments source with
  | case1 => exact .nil
  | case2 c rest cut ih =>
    have htext := cut_text c rest
    have hfirst : IsFirst (cut.segment.text ++ cut.rest) cut.segment := by
      rw [htext]
      exact isFirst_cut c rest
    rw [← htext]
    exact .cons hfirst ih

/-- **Cutting is munching**: the segments of a source are the only ones of which each
is the first of what is left. -/
theorem munched_iff {source : List Char} {ss : List Segment} :
    Munched source ss ↔ segments source = ss := by
  constructor
  · intro h
    induction h with
    | nil => rw [segments]
    | @cons s rest ss hfirst _ ih =>
      obtain ⟨c, more, hsource⟩ : ∃ c more, s.text ++ rest = c :: more :=
        List.exists_cons_of_ne_nil (List.append_ne_nil_of_left_ne_nil hfirst.text_ne_nil _)
      rw [hsource] at hfirst ⊢
      have hsegment : (cut c more).segment = s := (isFirst_cut c more).unique hfirst
      have hrest : (cut c more).rest = rest := by
        have htext := cut_text c more
        rw [← hsource, hsegment] at htext
        exact List.append_cancel_left htext
      rw [segments]
      show (cut c more).segment :: segments (cut c more).rest = s :: ss
      rw [hsegment, hrest, ih]
  · rintro rfl
    exact munched_segments source

end LoxCalc
