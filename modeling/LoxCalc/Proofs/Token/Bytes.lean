import LoxCalc.Proofs.Text.Ascii
import LoxCalc.Proofs.Token.Seams

/-!
# Scanning bytes

Bytes are scanned as the text of their parts, in which an invalid subpart is one U+FFFD.  That
character is in no lexeme but strings and comments.  **So an invalid subpart is either inside one
of these, where it goes unnoticed, or an error of its own** (`errorAt_of_exposed`,
`not_errorAt_of_enclosed`).  Which of the two it is depends on the segment that the character
stands in: every character of a source stands in one segment (`SegmentAt`).

The parts before a character are as many as the characters before it, so that lines can be counted
in bytes (`lineAfter_take_map_char`).
-/

namespace LoxCalc

open Segment
open Text.Utf8 (Part Divided)

/-! ### The segment of a character -/

/-- Whether the character with the number `n` stands in the segment `s`, behind `earlier`. -/
def SegmentAt (source : List Char) (n : Nat) (earlier : List Segment) (s : Segment) : Prop :=
  ∃ later, Munched source (earlier ++ s :: later) ∧ (earlier.flatMap text).length ≤ n ∧
    n < (earlier.flatMap text).length + s.text.length

theorem exists_split_at (ss : List Segment) : ∀ n, n < (ss.flatMap text).length →
    ∃ earlier s later, ss = earlier ++ s :: later ∧ (earlier.flatMap text).length ≤ n ∧
      n < (earlier.flatMap text).length + s.text.length := by
  induction ss with
  | nil => exact fun n hn => absurd hn (Nat.not_lt_zero n)
  | cons s ss ih =>
    intro n hn
    rw [List.flatMap_cons, List.length_append] at hn
    by_cases hfirst : n < s.text.length
    · exact ⟨[], s, ss, rfl, Nat.zero_le n, by simpa using hfirst⟩
    · obtain ⟨earlier, t, later, rfl, hle, hlt⟩ := ih (n - s.text.length) (by omega)
      refine ⟨s :: earlier, t, later, rfl, ?_, ?_⟩ <;>
        rw [List.flatMap_cons, List.length_append] <;> omega

theorem exists_segmentAt {source : List Char} {n : Nat} (h : n < source.length) :
    ∃ earlier s, SegmentAt source n earlier s := by
  have hmunched := munched_segments source
  rw [← flatMap_text_segments source] at h
  obtain ⟨earlier, s, later, hsegments, hle, hlt⟩ := exists_split_at _ n h
  rw [hsegments] at hmunched
  exact ⟨earlier, s, later, hmunched, hle, hlt⟩

/-- Two ways to split segments at one of them: the same, or one is further on. -/
theorem split_cases {earlier earlier' later later' : List Segment} {s s' : Segment}
    (h : earlier ++ s :: later = earlier' ++ s' :: later') :
    (earlier = earlier' ∧ s = s') ∨ (∃ between, earlier' = earlier ++ s :: between) ∨
      ∃ between, earlier = earlier' ++ s' :: between := by
  rcases List.append_eq_append_iff.mp h with ⟨between, rfl, hrest⟩ | ⟨between, rfl, hrest⟩
  · cases between with
    | nil => exact Or.inl ⟨(List.append_nil _).symm, (List.cons.inj hrest).1⟩
    | cons t between =>
      obtain rfl := (List.cons.inj hrest).1
      exact Or.inr (Or.inl ⟨between, rfl⟩)
  · cases between with
    | nil => exact Or.inl ⟨List.append_nil _, (List.cons.inj hrest).1.symm⟩
    | cons t between =>
      obtain rfl := (List.cons.inj hrest).1
      exact Or.inr (Or.inr ⟨between, rfl⟩)

namespace SegmentAt

variable {source : List Char} {n : Nat} {earlier earlier' : List Segment} {s s' : Segment}

/-- **A character stands in one segment.** -/
theorem unique (h : SegmentAt source n earlier s) (h' : SegmentAt source n earlier' s') :
    earlier = earlier' ∧ s = s' := by
  obtain ⟨later, hmunched, hle, hlt⟩ := h
  obtain ⟨later', hmunched', hle', hlt'⟩ := h'
  have hsegments := (munched_iff.mp hmunched).symm.trans (munched_iff.mp hmunched')
  rcases split_cases hsegments with hsame | ⟨between, rfl⟩ | ⟨between, rfl⟩
  · exact hsame
  · simp only [List.flatMap_append, List.flatMap_cons, List.length_append] at hle'
    omega
  · simp only [List.flatMap_append, List.flatMap_cons, List.length_append] at hle
    omega

theorem exists_isFirst (h : SegmentAt source n earlier s) : ∃ left, IsFirst left s := by
  obtain ⟨later, hmunched, -⟩ := h
  exact hmunched.exists_isFirst s (List.mem_append_right _ List.mem_cons_self)

theorem mem_text (h : SegmentAt source n earlier s) {c : Char} (hc : source[n]? = some c) :
    c ∈ s.text := by
  obtain ⟨later, hmunched, hle, hlt⟩ := h
  rw [← hmunched.flatMap_text, List.flatMap_append, List.getElem?_append_right hle,
    List.flatMap_cons, List.getElem?_append_left (by omega)] at hc
  exact List.mem_of_getElem? hc

end SegmentAt

/-! ### The place of an error -/

namespace ErrorAt

variable {source before before' : List Char} {k k' : Nat} {cause cause' : LexicalError.Cause}

theorem exists_segmentAt (h : ErrorAt source k cause before) :
    ∃ earlier s, SegmentAt source before.length earlier s ∧ earlier.flatMap text = before ∧
      earlier.countP isRefused = k ∧ s.Refused cause := by
  obtain ⟨earlier, s, later, hmunched, rfl, hcount, hs⟩ := h
  have hne := hmunched.text_ne_nil s (List.mem_append_right _ List.mem_cons_self)
  have hpos := List.length_pos_iff.mpr hne
  exact ⟨earlier, s, ⟨later, hmunched, Nat.le_refl _, by omega⟩, rfl, hcount, hs⟩

theorem number_unique (h : ErrorAt source k cause before) (h' : ErrorAt source k' cause' before) :
    k = k' := by
  obtain ⟨earlier, s, hat, -, rfl, -⟩ := h.exists_segmentAt
  obtain ⟨earlier', s', hat', -, rfl, -⟩ := h'.exists_segmentAt
  rw [(hat.unique hat').1]

theorem before_unique (h : ErrorAt source k cause before) (h' : ErrorAt source k cause' before') :
    before = before' := by
  obtain ⟨earlier, s, later, hmunched, rfl, hcount, hs⟩ := h
  obtain ⟨earlier', s', later', hmunched', rfl, hcount', hs'⟩ := h'
  have hsegments := (munched_iff.mp hmunched).symm.trans (munched_iff.mp hmunched')
  rcases split_cases hsegments with ⟨rfl, -⟩ | ⟨between, rfl⟩ | ⟨between, rfl⟩
  · rfl
  · rw [List.countP_append, List.countP_cons_of_pos hs.isRefused.1] at hcount'
    omega
  · rw [List.countP_append, List.countP_cons_of_pos hs'.isRefused.1] at hcount
    omega

theorem cause_unique (h : ErrorAt source k cause before) (h' : ErrorAt source k' cause' before) :
    cause = cause' := by
  obtain ⟨earlier, s, hat, -, -, hs⟩ := h.exists_segmentAt
  obtain ⟨earlier', s', hat', -, -, hs'⟩ := h'.exists_segmentAt
  obtain rfl := (hat.unique hat').2
  cases hs <;> cases hs' <;> rfl

end ErrorAt

namespace Scan

theorem length_errors_ofSegments (line : Nat) (ss : List Segment) :
    (ofSegments line ss).errors.length = ss.countP isRefused := by
  have hcauses := congrArg List.length (map_cause_errors ss line)
  rw [List.length_map, List.length_filterMap_eq_countP] at hcauses
  rw [hcauses]
  refine List.countP_congr fun s _ => ?_
  rw [cause?, Option.isSome_map, isRefused]

theorem lt_length_errors {source : Source} {k : Nat} {cause : LexicalError.Cause}
    {before : List Char} (h : ErrorAt source.characters k cause before) :
    k < (ofSource source).errors.length := by
  obtain ⟨earlier, s, later, hmunched, -, rfl, hs⟩ := h
  rw [ofSource, ofCharacters, length_errors_ofSegments, munched_iff.mp hmunched,
    List.countP_append, List.countP_cons_of_pos hs.isRefused.1]
  omega

/-- **The error of a character** that nothing begins with is on the line of the text before it. -/
theorem getElem?_errors {source : Source} {k : Nat} {before : List Char}
    (h : ErrorAt source.characters k .unexpectedCharacter before) :
    (ofSource source).errors[k]? = some ⟨.unexpectedCharacter, lineAfter before⟩ := by
  obtain ⟨⟨cause, line⟩, hget⟩ : ∃ e, (ofSource source).errors[k]? = some e :=
    ⟨_, List.getElem?_eq_getElem (lt_length_errors h)⟩
  obtain ⟨before', hat, -, hline⟩ := exists_errorAt hget
  obtain rfl := hat.before_unique h
  obtain rfl : cause = .unexpectedCharacter := hat.cause_unique h
  rw [hget, ← hline rfl]

end Scan

/-! ### What an invalid subpart comes to -/

inductive Segment.Encloses : Segment → Prop
  | comment (body : List Char) : Encloses (.comment body)
  | string (body : List Char) : Encloses (.string body)
  | unclosed (body : List Char) : Encloses (.unclosed body)

def Enclosed (source : List Char) (n : Nat) : Prop :=
  ∃ earlier s, SegmentAt source n earlier s ∧ s.Encloses

/-- **No lexeme has a U+FFFD in it**, but for strings and comments. -/
theorem Segment.encloses_or_stray {left : List Char} {s : Segment} (h : IsFirst left s)
    (hc : Text.Utf8.replacement ∈ s.text) :
    s.Encloses ∨ s = .stray Text.Utf8.replacement := by
  cases h with
  | unclosed _ _ => exact Or.inl (.unclosed _)
  | stray _ _ _ => exact Or.inr (by rw [List.mem_singleton.mp hc])
  | lexeme h =>
    have hword : ∀ c, Letter c ∨ Digit c → c ≠ Text.Utf8.replacement := by
      rintro c hc rfl
      exact absurd (isWordCharacter_iff.mp hc) (by decide)
    cases h.isLexeme with
    | comment _ => exact Or.inl (.comment _)
    | string _ => exact Or.inl (.string _)
    | blank hblank =>
      obtain rfl := List.mem_singleton.mp hc
      exact absurd (isBlank_iff.mp hblank) (by decide)
    | @symbol kind _ =>
      have hnot : Text.Utf8.replacement ∉ kind.spelling := by cases kind <;> decide
      exact absurd hc hnot
    | word hletter hmore =>
      rcases List.mem_cons.mp hc with heq | hc
      · exact absurd heq.symm (hword _ (Or.inl hletter))
      · exact absurd rfl (hword _ (hmore _ hc))
    | @number whole fraction _ hdigits =>
      have hnot : Text.Utf8.replacement ∉ whole ++ fraction :=
        fun hmem => hword _ (Or.inr (hdigits _ hmem)) rfl
      cases fraction with
      | nil => exact absurd (List.mem_append_left _ hc) hnot
      | cons d more =>
        rcases List.mem_append.mp hc with hwhole | hrest
        · exact absurd (List.mem_append_left _ hwhole) hnot
        · rcases List.mem_cons.mp hrest with hpoint | hfraction
          · exact absurd hpoint (by decide)
          · exact absurd (List.mem_append_right _ hfraction) hnot

section Replaced

variable {source : List Char} {n : Nat}

/-- **Outside of strings and comments** a U+FFFD is an error of its own. -/
theorem errorAt_of_exposed (hn : source[n]? = some Text.Utf8.replacement)
    (hexposed : ¬ Enclosed source n) :
    ∃ k, ErrorAt source k .unexpectedCharacter (source.take n) := by
  obtain ⟨hlt, -⟩ := List.getElem?_eq_some_iff.mp hn
  obtain ⟨earlier, s, hat⟩ := exists_segmentAt hlt
  obtain ⟨left, hfirst⟩ := hat.exists_isFirst
  rcases encloses_or_stray hfirst (hat.mem_text hn) with hencloses | rfl
  · exact absurd ⟨earlier, s, hat, hencloses⟩ hexposed
  · obtain ⟨later, hmunched, hle, hlt⟩ := hat
    obtain rfl : (earlier.flatMap text).length = n := by
      simp only [Segment.text, List.length_singleton] at hlt
      omega
    refine ⟨_, earlier, _, later, hmunched, ?_, rfl, .stray _⟩
    rw [← hmunched.flatMap_text, List.flatMap_append, List.take_left]

theorem not_errorAt_of_enclosed (hn : source[n]? = some Text.Utf8.replacement)
    (henclosed : Enclosed source n) (k : Nat) (cause : LexicalError.Cause) :
    ¬ ErrorAt source k cause (source.take n) := by
  intro h
  obtain ⟨hlt, -⟩ := List.getElem?_eq_some_iff.mp hn
  obtain ⟨earlier, s, hat, hencloses⟩ := henclosed
  obtain ⟨earlier', s', hat', hbefore, -, hs'⟩ := h.exists_segmentAt
  rw [List.length_take, Nat.min_eq_left (Nat.le_of_lt hlt)] at hat'
  obtain ⟨rfl, rfl⟩ := hat.unique hat'
  cases hs' with
  | stray c => cases hencloses
  | unclosed body =>
    -- the character would be the quote
    obtain ⟨later, hmunched, -⟩ := hat
    have hlength : (earlier.flatMap text).length = n := by
      rw [hbefore, List.length_take, Nat.min_eq_left (Nat.le_of_lt hlt)]
    rw [← hmunched.flatMap_text, List.flatMap_append,
      List.getElem?_append_right (Nat.le_of_eq hlength), hlength, Nat.sub_self] at hn
    exact absurd (Option.some.inj hn) (by decide)

end Replaced

/-! ### Lines -/

/-- The line on which the first `n` parts end: one more than the bytes `0x0A` in them. -/
def lineBehind (parts : List Part) (n : Nat) : Nat :=
  1 + ((parts.take n).flatMap Part.bytes).count 0x0A

theorem lineAfter_take_map_char {bytes : List UInt8} {parts : List Part} (h : Divided bytes parts)
    (n : Nat) : lineAfter ((parts.map Part.char).take n) = lineBehind parts n := by
  have htake : ∀ part ∈ parts.take n, part.HidesNothing :=
    fun part hpart => h.hidesNothing part (List.mem_of_mem_take hpart)
  rw [lineAfter, lineBehind, ← List.map_take, Text.Utf8.count_newline_map_char htake]

theorem TokenAt.isPrefix {source : List Char} {k : Nat} {t : Token} {before : List Char}
    (h : TokenAt source k t before) : before ++ t.lexeme.toList <+: source := by
  obtain ⟨earlier, s, later, hmunched, rfl, -, -, hlexeme⟩ := h
  refine ⟨later.flatMap text, ?_⟩
  rw [hlexeme, String.toList_ofList, ← hmunched.flatMap_text, List.flatMap_append,
    List.flatMap_cons, List.append_assoc]

theorem ErrorAt.isPrefix {source : List Char} {k : Nat} {cause : LexicalError.Cause}
    {before : List Char} (h : ErrorAt source k cause before) : before <+: source := by
  obtain ⟨earlier, s, later, hmunched, rfl, -, -⟩ := h
  rw [← hmunched.flatMap_text, List.flatMap_append]
  exact List.prefix_append _ _

namespace Scan

/-- What scanning bytes comes to, part by part.  A part has the number of its character in the
text. -/
structure ReadFrom (bytes : List UInt8) (parts : List Part) (scan : Scan) : Prop where
  /-- The bytes are scanned as the text of their parts. -/
  eq_text : scan = ofSource (.text (String.ofList (parts.map Part.char)))
  /-- No byte below `0x80` is lost or made up. -/
  ascii : (parts.map Part.char).filter (·.toNat < 0x80) = Text.Utf8.asciiCharacters bytes
  hidesNothing : ∀ part ∈ parts, part.HidesNothing
  tokenLine : ∀ {k : Nat} {t}, scan.body[k]? = some t →
    ∃ before, TokenAt (parts.map Part.char) k t before ∧
      t.line = lineBehind parts (before ++ t.lexeme.toList).length
  errorLine : ∀ {k : Nat} {e}, scan.errors[k]? = some e →
    ∃ before, ErrorAt (parts.map Part.char) k e.cause before ∧
      (e.cause = .unterminatedString → e.line = 1 + bytes.count 0x0A) ∧
      (e.cause = .unexpectedCharacter → e.line = lineBehind parts before.length)
  lastLine : scan.lastLine = 1 + bytes.count 0x0A
  /-- An invalid subpart inside a string or a comment is no error. -/
  enclosed : ∀ {n : Nat} {subpart}, parts[n]? = some (.invalid subpart) →
    Enclosed (parts.map Part.char) n → ∀ k cause,
      ¬ ErrorAt (parts.map Part.char) k cause ((parts.map Part.char).take n)
  /-- Any other one is an error that is about nothing else. -/
  exposed : ∀ {n : Nat} {subpart}, parts[n]? = some (.invalid subpart) →
    ¬ Enclosed (parts.map Part.char) n →
      ∃! k, (∀ before, ErrorAt (parts.map Part.char) k .unexpectedCharacter before ↔
          before = (parts.map Part.char).take n) ∧
        scan.errors[k]? = some ⟨.unexpectedCharacter, lineBehind parts n⟩

theorem readFrom_of_divided {bytes : List UInt8} {parts : List Part} (h : Divided bytes parts) :
    ReadFrom bytes parts (ofSource (.bytes bytes)) := by
  have htext : (Source.bytes bytes).characters = parts.map Part.char := h.decode_eq
  have hcount : lineAfter (parts.map Part.char) = 1 + bytes.count 0x0A := by
    rw [lineAfter, Text.Utf8.count_newline_map_char h.hidesNothing, h.flatMap_bytes]
  have hline : ∀ {before}, before <+: parts.map Part.char →
      lineAfter before = lineBehind parts before.length := by
    intro before hbegin
    rw [← lineAfter_take_map_char h, ← List.prefix_iff_eq_take.mp hbegin]
  have hchar : ∀ {n : Nat} {subpart}, parts[n]? = some (Part.invalid subpart) →
      (parts.map Part.char)[n]? = some Text.Utf8.replacement := by
    intro n subpart hn
    rw [List.getElem?_map, hn]
    rfl
  constructor
  case eq_text =>
    rw [ofSource, ofSource, htext]
    exact congrArg ofCharacters String.toList_ofList.symm
  case ascii => rw [Text.Utf8.filter_ascii_map_char h.hidesNothing, h.flatMap_bytes]
  case hidesNothing => exact h.hidesNothing
  case tokenLine =>
    intro k t ht
    obtain ⟨before, hat, hlast⟩ := exists_tokenAt ht
    rw [htext] at hat
    refine ⟨before, hat, ?_⟩
    rw [hlast, hline hat.isPrefix]
  case errorLine =>
    intro k e he
    obtain ⟨before, hat, hunterminated, hunexpected⟩ := exists_errorAt he
    rw [htext] at hat hunterminated
    refine ⟨before, hat, fun hcause => ?_, fun hcause => ?_⟩
    · rw [hunterminated hcause, hcount]
    · rw [hunexpected hcause, hline hat.isPrefix]
  case lastLine => rw [lastLine_ofSource, htext, hcount]
  case enclosed => exact fun hn henclosed => not_errorAt_of_enclosed (hchar hn) henclosed
  case exposed =>
    intro n subpart hn hexposed
    obtain ⟨k, hat⟩ := errorAt_of_exposed (hchar hn) hexposed
    refine ⟨k, ⟨fun before => ⟨fun h => h.before_unique hat, fun h => h ▸ hat⟩, ?_⟩, ?_⟩
    · rw [← htext] at hat
      rw [getElem?_errors hat, htext, lineAfter_take_map_char h]
    · rintro k' ⟨hplace, -⟩
      exact ((hplace _).mpr rfl).number_unique hat

/-- **Scanning bytes.**  Encoded text is scanned as the text itself.  Any bytes have one division
into characters and invalid subparts, and are scanned as its text. -/
theorem ofSource_bytes :
    (∀ s : String, ofSource (.bytes (Text.Utf8.encode s.toList)) = ofSource (.text s)) ∧
      ∀ bytes : List UInt8, ∃ parts, (∀ others, Divided bytes others ↔ others = parts) ∧
        ReadFrom bytes parts (ofSource (.bytes bytes)) := by
  constructor
  · intro s
    exact congrArg ofCharacters (Text.Utf8.decode_encode s.toList)
  · intro bytes
    obtain ⟨parts, hparts, -⟩ := Text.Utf8.exists_divided bytes
    refine ⟨parts, fun others => ⟨fun h => h.unique hparts, ?_⟩, readFrom_of_divided hparts⟩
    rintro rfl
    exact hparts

end Scan

end LoxCalc
