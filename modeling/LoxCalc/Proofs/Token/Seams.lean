import LoxCalc.Proofs.Expr.Lines
import LoxCalc.Proofs.Token.Places

/-!
# Seams

A blank is a seam of the text: what stands before it and what stands behind it are cut apart
on their own (`segments_append_blank`).  There are two exceptions.  A string that is still
open goes on over every blank, and a comment ends only where its line ends.  **So a newline is
a seam behind everything but an open string**, whatever the text before it ends in: a comment,
half of an operator, or a number with a point.

Across a seam nothing is carried over but the count of lines.  `Scan.ofSegments_append` puts
two scans one after the other, and `Scan.ofSegments_add` is a scan some lines further down.

* `Scan.ofSource_newline_iff`: scanning a text line by line.
-/

namespace LoxCalc

namespace Segment

/-! ### Runs of characters -/

section Runs

variable {p : Char → Bool} {b : Char}

theorem takeWhile_append_cons (hb : p b = false) (text rest : List Char) :
    (text ++ b :: rest).takeWhile p = text.takeWhile p := by
  induction text with
  | nil => exact takeWhile_of_notBegun hb
  | cons c text ih => rw [List.cons_append, List.takeWhile_cons, List.takeWhile_cons, ih]

theorem dropWhile_append_cons (hb : p b = false) (text rest : List Char) :
    (text ++ b :: rest).dropWhile p = text.dropWhile p ++ b :: rest := by
  induction text with
  | nil => exact dropWhile_of_notBegun hb
  | cons c text ih =>
    rw [List.cons_append, List.dropWhile_cons, List.dropWhile_cons, ih]
    split <;> rfl

theorem notBegun_append_cons (hb : p b = false) {text : List Char} (h : NotBegun p text)
    (rest : List Char) : NotBegun p (text ++ b :: rest) := by
  cases text with
  | nil => exact hb
  | cons c text => exact h

end Runs

/-! ### Cuts before a blank -/

/-- Whether a segment ends before the blank `b`: an open string does not, and a comment does
only at the end of its line. -/
def EndsBefore (b : Char) : Segment → Prop
  | .unclosed _ => False
  | .comment _ => b = '\n'
  | _ => True

def Cut.append (cut : Cut) (more : List Char) : Cut :=
  ⟨cut.segment, cut.rest ++ more⟩

section Blanks

variable {b : Char}

theorem cutExtensible_append (hb : b ≠ '=') (longer shorter : Kind) (rest more : List Char) :
    cutExtensible longer shorter (rest ++ b :: more) =
      (cutExtensible longer shorter rest).append (b :: more) := by
  have hequal : (b == '=') = false := beq_eq_false_iff_ne.mpr hb
  cases rest with
  | nil =>
    have hbegun : NotBegun (· == '=') (b :: more) := hequal
    exact cutExtensible_of_notBegun hbegun longer shorter
  | cons c rest =>
    by_cases hc : c = '='
    · subst hc
      rfl
    · have hbegun : NotBegun (· == '=') (c :: rest) := beq_eq_false_iff_ne.mpr hc
      rw [cutExtensible_of_notBegun hbegun,
        cutExtensible_of_notBegun (notBegun_append_cons (p := (· == '=')) hequal hbegun more)]
      rfl

theorem cutSlash_append (hb : b ≠ '/') {rest : List Char}
    (h : (cutSlash rest).segment.EndsBefore b) (more : List Char) :
    cutSlash (rest ++ b :: more) = (cutSlash rest).append (b :: more) := by
  have hslash : (b == '/') = false := beq_eq_false_iff_ne.mpr hb
  cases rest with
  | nil =>
    have hbegun : NotBegun (· == '/') (b :: more) := hslash
    exact cutSlash_of_notBegun hbegun
  | cons c rest =>
    by_cases hc : c = '/'
    · subst hc
      -- only here does the kind of blank matter
      obtain rfl : b = '\n' := h
      have hnewline : (fun c => decide (c ≠ '\n')) '\n' = false := rfl
      show (⟨.comment ((rest ++ '\n' :: more).takeWhile _), (rest ++ '\n' :: more).dropWhile _⟩ :
        Cut) = _
      rw [takeWhile_append_cons hnewline, dropWhile_append_cons hnewline]
      rfl
    · have hbegun : NotBegun (· == '/') (c :: rest) := beq_eq_false_iff_ne.mpr hc
      rw [cutSlash_of_notBegun hbegun,
        cutSlash_of_notBegun (notBegun_append_cons (p := (· == '/')) hslash hbegun more)]
      rfl

theorem cutQuote_of_notMem_rest {rest : List Char} (h : '"' ∉ rest) :
    cutQuote rest = ⟨.unclosed rest, []⟩ := by
  have hdrop : rest.dropWhile (· ≠ '"') = [] :=
    List.dropWhile_eq_nil_iff.mpr fun c hc => decide_eq_true fun heq => h (heq ▸ hc)
  rw [cutQuote, hdrop]

theorem cutQuote_append {rest : List Char} (h : (cutQuote rest).segment.EndsBefore b)
    (more : List Char) : cutQuote (rest ++ b :: more) = (cutQuote rest).append (b :: more) := by
  by_cases hmem : '"' ∈ rest
  · obtain ⟨body, tail, rfl, hbody⟩ := List.eq_append_cons_of_mem hmem
    rw [List.append_assoc, List.cons_append, cutQuote_of_notMem hbody, cutQuote_of_notMem hbody]
    rfl
  · rw [cutQuote_of_notMem_rest hmem] at h
    exact h.elim

theorem cutFraction_append (hpoint : b ≠ '.') (hdigit : b.isDigit = false)
    (whole rest more : List Char) :
    cutFraction whole (rest ++ b :: more) = (cutFraction whole rest).append (b :: more) := by
  have hbegun : (b == '.') = false := beq_eq_false_iff_ne.mpr hpoint
  cases rest with
  | nil =>
    have hnot : NotBegun (· == '.') (b :: more) := hbegun
    exact cutFraction_nil hnot
  | cons c rest =>
    by_cases hc : c = '.'
    · subst hc
      cases rest with
      | nil =>
        show cutFraction whole ('.' :: b :: more) = ⟨.number whole [], ['.'] ++ b :: more⟩
        rw [cutFraction, hdigit]
        rfl
      | cons d rest =>
        rw [List.cons_append, List.cons_append, cutFraction, cutFraction,
          takeWhile_append_cons hdigit, dropWhile_append_cons hdigit]
        split <;> rfl
    · have hnot : NotBegun (· == '.') (c :: rest) := beq_eq_false_iff_ne.mpr hc
      rw [cutFraction_nil hnot,
        cutFraction_nil (notBegun_append_cons (p := (· == '.')) hbegun hnot more)]
      rfl

/-- What a blank is not: it goes on with no segment but a string or a comment. -/
theorem blank_extends_nothing (hb : isBlank b = true) :
    b ≠ '=' ∧ b ≠ '/' ∧ b ≠ '.' ∧ b.isDigit = false ∧ isWordCharacter b = false := by
  rcases isBlank_iff.mpr hb with rfl | rfl | rfl | rfl <;> decide

/-- **A blank does not change the cut before it.** -/
theorem cut_append (hb : isBlank b = true) {c : Char} {rest : List Char}
    (h : (cut c rest).segment.EndsBefore b) (more : List Char) :
    cut c (rest ++ b :: more) = (cut c rest).append (b :: more) := by
  obtain ⟨hequal, hslash, hpoint, hdigit, hword⟩ := blank_extends_nothing hb
  cases hpunctuation : punctuation? c with
  | some kind =>
    simp only [cut, hpunctuation]
    rfl
  | none =>
    cases hextensible : extensible? c with
    | some kinds =>
      simp only [cut, hpunctuation, hextensible]
      exact cutExtensible_append hequal _ _ rest more
    | none =>
      simp only [cut, hpunctuation, hextensible] at h ⊢
      by_cases hcslash : c = '/'
      · rw [if_pos hcslash] at h ⊢
        rw [if_pos hcslash]
        exact cutSlash_append hslash h more
      rw [if_neg hcslash] at h ⊢
      rw [if_neg hcslash]
      by_cases hcblank : isBlank c = true
      · rw [if_pos hcblank, if_pos hcblank]
        rfl
      rw [if_neg hcblank] at h ⊢
      rw [if_neg hcblank]
      by_cases hcquote : c = '"'
      · rw [if_pos hcquote] at h ⊢
        rw [if_pos hcquote]
        exact cutQuote_append h more
      rw [if_neg hcquote, if_neg hcquote]
      by_cases hcdigit : c.isDigit = true
      · rw [if_pos hcdigit, if_pos hcdigit, takeWhile_append_cons hdigit,
          dropWhile_append_cons hdigit]
        exact cutFraction_append hpoint hdigit _ _ more
      rw [if_neg hcdigit, if_neg hcdigit, takeWhile_append_cons hword,
        dropWhile_append_cons hword]
      split <;> rfl

theorem segments_blank (hb : isBlank b = true) (rest : List Char) :
    segments (b :: rest) = .blank b :: segments rest := by
  rcases isBlank_iff.mpr hb with rfl | rfl | rfl | rfl <;> exact segments_of_cut rfl

/-- **A blank is a seam**: the texts before and behind it are cut on their own. -/
theorem segments_append_blank (hb : isBlank b = true) {text : List Char}
    (h : ∀ s ∈ segments text, s.EndsBefore b) (rest : List Char) :
    segments (text ++ b :: rest) = segments text ++ .blank b :: segments rest := by
  fun_induction segments text with
  | case1 => exact segments_blank hb rest
  | case2 c text cut ih =>
    obtain ⟨hfirst, hothers⟩ := List.forall_mem_cons.mp h
    rw [List.cons_append, segments_of_cut (cut_append hb hfirst rest), ih hothers, List.cons_append]

end Blanks

def cause? (s : Segment) : Option LexicalError.Cause :=
  (s.error? 1).map (·.cause)

theorem token?_unlined (s : Segment) (line : Nat) :
    (s.token? line).map Token.unlined = s.token? 0 := by
  rw [token?, token?, Option.map_map]
  rfl

theorem cause?_eq (s : Segment) (line : Nat) : (s.error? line).map (·.cause) = s.cause? := by
  cases s <;> rfl

end Segment

open Segment

/-! ### Lines -/

def Token.raised (lines : Nat) (t : Token) : Token :=
  { t with line := t.line + lines }

def LexicalError.raised (lines : Nat) (e : LexicalError) : LexicalError :=
  { e with line := e.line + lines }

namespace Scan

/-- **Segments are scanned one after the other**: the later ones begin on the line on which
the earlier ones end. -/
theorem ofSegments_append (ss ts : List Segment) : ∀ line,
    ofSegments line (ss ++ ts) =
      ⟨(ofSegments line ss).body ++ (ofSegments (ofSegments line ss).lastLine ts).body,
        (ofSegments line ss).errors ++ (ofSegments (ofSegments line ss).lastLine ts).errors,
        (ofSegments (ofSegments line ss).lastLine ts).lastLine⟩ := by
  induction ss with
  | nil => intro line; rfl
  | cons s ss ih =>
    intro line
    rw [List.cons_append, ofSegments, ih, ofSegments]
    simp only [List.append_assoc]

/-- **Segments further down** give the same tokens and errors further down. -/
theorem ofSegments_add (lines : Nat) (ss : List Segment) : ∀ line,
    ofSegments (line + lines) ss =
      ⟨(ofSegments line ss).body.map (Token.raised lines),
        (ofSegments line ss).errors.map (LexicalError.raised lines),
        (ofSegments line ss).lastLine + lines⟩ := by
  induction ss with
  | nil => intro line; rfl
  | cons s ss ih =>
    intro line
    have htoken : ∀ n, (s.token? (n + lines)).toList = (s.token? n).toList.map (.raised lines) := by
      intro n
      rw [token?, token?]
      cases s.meaning? <;> rfl
    have herror : ∀ n, (s.error? (n + lines)).toList = (s.error? n).toList.map (.raised lines) := by
      intro n
      cases s <;> rfl
    rw [ofSegments, ofSegments, Nat.add_right_comm, ih, htoken, herror]
    simp only [List.map_append]

theorem map_unlined_body (ss : List Segment) : ∀ line,
    (ofSegments line ss).body.map Token.unlined = ss.filterMap (token? 0) := by
  induction ss with
  | nil => intro line; rfl
  | cons s ss ih =>
    intro line
    rw [ofSegments, List.map_append, ih, List.filterMap_cons,
      ← token?_unlined s (line + s.newlines)]
    cases s.token? (line + s.newlines) <;> rfl

/-- What the errors of a scan are about does not depend on lines. -/
theorem map_cause_errors (ss : List Segment) : ∀ line,
    (ofSegments line ss).errors.map (·.cause) = ss.filterMap cause? := by
  induction ss with
  | nil => intro line; rfl
  | cons s ss ih =>
    intro line
    rw [ofSegments, List.map_append, ih, List.filterMap_cons, ← cause?_eq s (line + s.newlines)]
    cases s.error? (line + s.newlines) <;> rfl

theorem endsBefore_newline {text : List Char}
    (h : ∀ e ∈ (ofCharacters text).errors, e.cause ≠ .unterminatedString) :
    ∀ s ∈ segments text, s.EndsBefore '\n' := by
  intro s hs
  cases s with
  | unclosed body =>
    have hmem : LexicalError.Cause.unterminatedString ∈ (segments text).filterMap cause? :=
      List.mem_filterMap.mpr ⟨_, hs, rfl⟩
    rw [← map_cause_errors _ 1] at hmem
    obtain ⟨e, he, hcause⟩ := List.mem_map.mp hmem
    exact absurd hcause (h e he)
  | comment _ => exact rfl
  | _ => trivial

theorem tokens_ofSegments_add (lines line : Nat) (ss : List Segment) :
    (ofSegments (line + lines) ss).tokens =
      (ofSegments line ss).tokens.map (Token.raised lines) := by
  rw [ofSegments_add, tokens, tokensAfter, tokens, tokensAfter, List.map_append]
  rfl

theorem ofCharacters_newline {first : List Char} (second : List Char)
    (h : ∀ s ∈ segments first, s.EndsBefore '\n') :
    (ofCharacters (first ++ '\n' :: second)).tokens =
        (ofCharacters first).body ++
          (ofCharacters second).tokens.map (Token.raised (1 + first.count '\n')) ∧
      (ofCharacters (first ++ '\n' :: second)).errors =
        (ofCharacters first).errors ++
          (ofCharacters second).errors.map (LexicalError.raised (1 + first.count '\n')) := by
  have hlast : (ofSegments 1 (segments first)).lastLine = 1 + first.count '\n' := by
    have hlines := lastLine_ofSegments (segments first) []
    rwa [flatMap_text_segments] at hlines
  have hnewline : ∀ line, ofSegments line (.blank '\n' :: segments second) =
      ofSegments (line + 1) (segments second) := fun _ => rfl
  have hsecond : ofSegments (1 + first.count '\n') (.blank '\n' :: segments second) =
      ofSegments (1 + (1 + first.count '\n')) (segments second) := by
    rw [hnewline, Nat.add_comm _ 1]
  have hscan : ofCharacters (first ++ '\n' :: second) =
      ⟨(ofCharacters first).body ++
          (ofSegments (1 + (1 + first.count '\n')) (segments second)).body,
        (ofCharacters first).errors ++
          (ofSegments (1 + (1 + first.count '\n')) (segments second)).errors,
        (ofSegments (1 + (1 + first.count '\n')) (segments second)).lastLine⟩ := by
    rw [ofCharacters, segments_append_blank rfl h, ofSegments_append, hlast, hsecond]
    rfl
  constructor
  · have hraised := tokens_ofSegments_add (1 + first.count '\n') 1 (segments second)
    rw [hscan, show (ofCharacters second).tokens = (ofSegments 1 (segments second)).tokens from rfl,
      ← hraised]
    exact List.append_assoc _ _ _
  · rw [hscan, ofSegments_add]
    rfl

theorem line_of_unterminated {text : String} {e : LexicalError}
    (he : e ∈ (ofSource (.text text)).errors) (hcause : e.cause = .unterminatedString) :
    e.line = lineAfter text.toList := by
  obtain ⟨k, hk⟩ := List.getElem?_of_mem he
  obtain ⟨-, -, hline, -⟩ := exists_errorAt hk
  exact hline hcause

/-- **A text is scanned line by line**, as long as no string is open at the end of a line.  With
a newline between two texts, the tokens are those of the first one without its end of input and
then those of the second one, further down by the newlines before it; and so are the errors.
If a string is open at the end of the first text, this is not so. -/
theorem ofSource_newline_iff (first second : String) :
    (∀ e ∈ (ofSource (.text first)).errors, e.cause ≠ .unterminatedString) ↔
      (ofSource (.text (first ++ "\n" ++ second))).tokens =
          (ofSource (.text first)).body ++
            (ofSource (.text second)).tokens.map (Token.raised (1 + first.toList.count '\n')) ∧
        (ofSource (.text (first ++ "\n" ++ second))).errors =
          (ofSource (.text first)).errors ++
            (ofSource (.text second)).errors.map
              (LexicalError.raised (1 + first.toList.count '\n')) := by
  have htext : (first ++ "\n" ++ second).toList = first.toList ++ '\n' :: second.toList := by
    rw [String.toList_append, String.toList_append, List.append_assoc]
    rfl
  constructor
  · intro h
    have hends : ∀ s ∈ segments first.toList, s.EndsBefore '\n' := endsBefore_newline h
    have hparts := ofCharacters_newline second.toList hends
    rw [← htext] at hparts
    exact hparts
  · rintro ⟨-, herrors⟩ e he hcause
    have hwhole : e ∈ (ofSource (.text (first ++ "\n" ++ second))).errors := by
      rw [herrors]
      exact List.mem_append_left _ he
    -- the error would be on the last line of the first text and on that of the whole text
    have hline := line_of_unterminated he hcause
    rw [line_of_unterminated hwhole hcause, htext, lineAfter, lineAfter, List.count_append,
      List.count_cons_self] at hline
    omega

end Scan

end LoxCalc
