import LoxCalc.Token.Basic

/-!
# Segments of source text

Source text is cut into *segments*: blanks, comments, operators and punctuation,
strings, numbers, words, and what fits none of these.  `cut` takes the first one
off, and `segments` cuts until nothing is left.  **Nothing is lost**: the texts
of the segments, one after the other, are the source (`flatMap_text_segments`).

At most two characters past the current one decide which segment begins; a
segment then runs as far as its characters allow.  A double quote that is never
closed takes the rest of the source with it.
-/

namespace LoxCalc

inductive Segment where
  /-- A space, a tab, a carriage return or a newline. -/
  | blank (c : Char)
  /-- Two slashes and what follows them on the line. -/
  | comment (body : List Char)
  /-- An operator or a punctuation mark. -/
  | symbol (kind : Kind)
  /-- The characters between two double quotes. -/
  | string (body : List Char)
  /-- Digits, and the digits after a point, if there are any. -/
  | number (whole fraction : List Char)
  /-- A letter or underscore, and the letters, digits and underscores after it. -/
  | word (text : List Char)
  /-- What follows a double quote without a second one. -/
  | unclosed (body : List Char)
  /-- A character that begins nothing. -/
  | stray (c : Char)
  deriving DecidableEq, Repr

namespace Segment

def text : Segment → List Char
  | .blank c => [c]
  | .comment body => '/' :: '/' :: body
  | .symbol kind => kind.spelling
  | .string body => '"' :: (body ++ ['"'])
  | .number whole [] => whole
  | .number whole fraction => whole ++ '.' :: fraction
  | .word text => text
  | .unclosed body => '"' :: body
  | .stray c => [c]

def isBlank (c : Char) : Bool :=
  c == ' ' || c == '\t' || c == '\r' || c == '\n'

def isLetter (c : Char) : Bool :=
  c.isAlpha || c == '_'

def isWordCharacter (c : Char) : Bool :=
  isLetter c || c.isDigit

/-- The punctuation that is a token whatever follows it. -/
def punctuation? : Char → Option Kind
  | '(' => some .leftParen
  | ')' => some .rightParen
  | '\x7b' => some .leftBrace
  | '\x7d' => some .rightBrace
  | ',' => some .comma
  | '.' => some .dot
  | '-' => some .minus
  | '+' => some .plus
  | ';' => some .semicolon
  | '*' => some .star
  | '?' => some .question
  | ':' => some .colon
  | _ => none

/-- The operators that an equals sign extends: the kind with it and the kind
without. -/
def extensible? : Char → Option (Kind × Kind)
  | '!' => some (.bangEqual, .bang)
  | '=' => some (.equalEqual, .equal)
  | '<' => some (.lessEqual, .less)
  | '>' => some (.greaterEqual, .greater)
  | _ => none

structure Cut where
  segment : Segment
  rest : List Char
  deriving DecidableEq, Repr

/-- What follows a slash: a comment up to the end of the line, or a division. -/
def cutSlash : List Char → Cut
  | '/' :: more => ⟨.comment (more.takeWhile (· ≠ '\n')), more.dropWhile (· ≠ '\n')⟩
  | rest => ⟨.symbol .slash, rest⟩

def cutQuote (rest : List Char) : Cut :=
  match rest.dropWhile (· ≠ '"') with
  | _ :: more => ⟨.string (rest.takeWhile (· ≠ '"')), more⟩
  | [] => ⟨.unclosed rest, []⟩

/-- What follows the digits `whole`: a point counts only with a digit after it. -/
def cutFraction (whole : List Char) : List Char → Cut
  | '.' :: d :: more =>
    if d.isDigit then
      ⟨.number whole (d :: more.takeWhile Char.isDigit), more.dropWhile Char.isDigit⟩
    else ⟨.number whole [], '.' :: d :: more⟩
  | rest => ⟨.number whole [], rest⟩

/-- What follows an operator that an equals sign extends. -/
def cutExtensible (longer shorter : Kind) : List Char → Cut
  | '=' :: more => ⟨.symbol longer, more⟩
  | rest => ⟨.symbol shorter, rest⟩

/-- The first segment of the source `c :: rest`. -/
def cut (c : Char) (rest : List Char) : Cut :=
  if let some kind := punctuation? c then ⟨.symbol kind, rest⟩
  else if let some (longer, shorter) := extensible? c then cutExtensible longer shorter rest
  else if c = '/' then cutSlash rest
  else if isBlank c then ⟨.blank c, rest⟩
  else if c = '"' then cutQuote rest
  else if c.isDigit then
    cutFraction (c :: rest.takeWhile Char.isDigit) (rest.dropWhile Char.isDigit)
  else if isLetter c then
    ⟨.word (c :: rest.takeWhile isWordCharacter), rest.dropWhile isWordCharacter⟩
  else ⟨.stray c, rest⟩

/-! ### Nothing is lost -/

theorem cutSlash_text (rest : List Char) :
    (cutSlash rest).segment.text ++ (cutSlash rest).rest = '/' :: rest := by
  unfold cutSlash
  split
  · simp [text, List.takeWhile_append_dropWhile]
  · simp [text, Kind.spelling, Kind.spelling?]

theorem cutQuote_text (rest : List Char) :
    (cutQuote rest).segment.text ++ (cutQuote rest).rest = '"' :: rest := by
  have whole := List.takeWhile_append_dropWhile (p := (· ≠ '"')) (l := rest)
  unfold cutQuote
  split
  · rename_i d more h
    have closing : d = '"' := by
      have := List.head?_dropWhile_not (· ≠ '"') rest
      rw [h] at this
      simpa using this
    subst closing
    rw [h] at whole
    simpa [text] using whole
  · simp [text]

theorem cutFraction_text (whole rest : List Char) :
    (cutFraction whole rest).segment.text ++ (cutFraction whole rest).rest = whole ++ rest := by
  unfold cutFraction
  split
  · split
    · simp [text, List.takeWhile_append_dropWhile]
    · simp [text]
  · simp [text]

theorem cutExtensible_text {c : Char} {longer shorter : Kind}
    (h : extensible? c = some (longer, shorter)) (rest : List Char) :
    (cutExtensible longer shorter rest).segment.text ++ (cutExtensible longer shorter rest).rest =
      c :: rest := by
  unfold extensible? at h
  unfold cutExtensible
  split at h <;> simp at h <;> obtain ⟨rfl, rfl⟩ := h <;> split <;>
    simp [text, Kind.spelling, Kind.spelling?]

theorem punctuation_text {c : Char} {kind : Kind} (h : punctuation? c = some kind) :
    (symbol kind).text = [c] := by
  unfold punctuation? at h
  split at h <;> simp at h <;> subst h <;> simp [text, Kind.spelling, Kind.spelling?]

/-- **A cut loses nothing.** -/
theorem cut_text (c : Char) (rest : List Char) :
    (cut c rest).segment.text ++ (cut c rest).rest = c :: rest := by
  unfold cut
  split
  · rename_i kind h
    simp [punctuation_text h]
  split
  · rename_i longer shorter h
    exact cutExtensible_text h rest
  split
  · rename_i h
    simpa [h] using cutSlash_text rest
  split
  · simp [text]
  split
  · rename_i h
    simpa [h] using cutQuote_text rest
  split
  · rw [cutFraction_text, List.cons_append, List.takeWhile_append_dropWhile]
  split
  · simp [text, List.takeWhile_append_dropWhile]
  · simp [text]

/-! ### Cutting until nothing is left -/

theorem length_dropWhile_le (p : Char → Bool) (rest : List Char) :
    (rest.dropWhile p).length ≤ rest.length :=
  (List.dropWhile_sublist p).length_le

theorem length_cutSlash_rest (rest : List Char) : (cutSlash rest).rest.length ≤ rest.length := by
  unfold cutSlash
  split
  · exact Nat.le_succ_of_le (length_dropWhile_le _ _)
  · exact Nat.le_refl _

theorem length_cutQuote_rest (rest : List Char) : (cutQuote rest).rest.length ≤ rest.length := by
  have shorter := length_dropWhile_le (· ≠ '"') rest
  unfold cutQuote
  split
  · rename_i h
    rw [h, List.length_cons] at shorter
    exact Nat.le_of_succ_le shorter
  · exact Nat.zero_le _

theorem length_cutFraction_rest (whole rest : List Char) :
    (cutFraction whole rest).rest.length ≤ rest.length := by
  unfold cutFraction
  split
  · split
    · exact Nat.le_succ_of_le (Nat.le_succ_of_le (length_dropWhile_le _ _))
    · exact Nat.le_refl _
  · exact Nat.le_refl _

theorem length_cutExtensible_rest (longer shorter : Kind) (rest : List Char) :
    (cutExtensible longer shorter rest).rest.length ≤ rest.length := by
  unfold cutExtensible
  split
  · exact Nat.le_succ _
  · exact Nat.le_refl _

/-- A cut takes at least the character that it begins with. -/
theorem length_cut_rest (c : Char) (rest : List Char) :
    (cut c rest).rest.length ≤ rest.length := by
  unfold cut
  split
  · exact Nat.le_refl _
  split
  · exact length_cutExtensible_rest _ _ rest
  split
  · exact length_cutSlash_rest rest
  split
  · exact Nat.le_refl _
  split
  · exact length_cutQuote_rest rest
  split
  · exact Nat.le_trans (length_cutFraction_rest _ _) (length_dropWhile_le _ rest)
  split
  · exact length_dropWhile_le _ rest
  · exact Nat.le_refl _

end Segment

def segments : List Char → List Segment
  | [] => []
  | c :: rest =>
    let cut := Segment.cut c rest
    cut.segment :: segments cut.rest
termination_by source => source.length
decreasing_by
  exact Nat.lt_succ_of_le (Segment.length_cut_rest c rest)

/-- **The segments make up the source.** -/
theorem flatMap_text_segments (source : List Char) :
    (segments source).flatMap Segment.text = source := by
  fun_induction segments source with
  | case1 => rfl
  | case2 c rest cut ih => rw [List.flatMap_cons, ih, Segment.cut_text]

end LoxCalc
