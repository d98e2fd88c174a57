import LoxCalc.Proofs.Token.Tokenisation

/-!
# Where tokens and errors stand

A token is one of the segments of its source, and so is a lexical error.  `TokenAt` and
`ErrorAt` say which one it is: the one with a number among those that stand for a token, or
are refused, and with a certain text before it.

**Lines are counted in that text.**  The scanner counts newlines segment by segment, those
inside strings with the segment that holds them and that of a comment with the blank behind
it; what it comes to is one more than the newlines of the source so far.

* `Scans.exists_token_placed`, `Scans.exists_error_placed`: the segments of tokens and errors.
* `Scan.exists_tokenAt`, `Scan.exists_errorAt`: where they stand in a source, and their lines.
-/

namespace LoxCalc

open Segment

namespace Segment

def isToken (s : Segment) : Bool :=
  s.meaning?.isSome

def isRefused (s : Segment) : Bool :=
  (s.error? 1).isSome

variable {s : Segment}

theorem Denotes.isToken {kind : Kind} {value : Value} (h : s.Denotes kind value) :
    s.isToken = true ∧ s.isRefused = false := by
  cases h <;> exact ⟨rfl, rfl⟩

theorem Refused.isRefused {cause : LexicalError.Cause} (h : s.Refused cause) :
    s.isRefused = true ∧ s.isToken = false := by
  cases h <;> exact ⟨rfl, rfl⟩

theorem Silent.isToken (h : s.Silent) : s.isToken = false ∧ s.isRefused = false := by
  cases h <;> exact ⟨rfl, rfl⟩

theorem Denotes.eq_symbol {kind : Kind} {value : Value} (h : s.Denotes kind value)
    (hkind : kind.isSymbol = true) : s = .symbol kind := by
  cases h with
  | symbol _ => rfl
  | string _ | number _ _ | identifier _ => exact absurd hkind (by decide)
  | keyword hkeyword _ =>
    have hnone : ∀ k ∈ Kind.keywords, k.isSymbol = false := by decide
    rw [hnone kind hkeyword] at hkind
    cases hkind

end Segment

theorem Kind.newline_notMem_spelling (k : Kind) : '\n' ∉ k.spelling := by
  cases k <;> decide

/-! ### Occurrences -/

/-- Whether `t` is the token of a source that has `k` tokens before it, and `before` is the
text before it. -/
def TokenAt (source : List Char) (k : Nat) (t : Token) (before : List Char) : Prop :=
  ∃ earlier s later, Munched source (earlier ++ s :: later) ∧ earlier.flatMap text = before ∧
    earlier.countP isToken = k ∧ s.Denotes t.kind t.literal ∧ t.lexeme = String.ofList s.text

/-- Whether a source is refused for `cause` where it has been refused `k` times before, and
`before` is the text before that place. -/
def ErrorAt (source : List Char) (k : Nat) (cause : LexicalError.Cause) (before : List Char) :
    Prop :=
  ∃ earlier s later, Munched source (earlier ++ s :: later) ∧ earlier.flatMap text = before ∧
    earlier.countP isRefused = k ∧ s.Refused cause

namespace Munched

variable {source : List Char}

theorem exists_rest {later : List Segment} : ∀ {earlier : List Segment} {source : List Char},
    Munched source (earlier ++ later) → ∃ rest, Munched rest later := by
  intro earlier
  induction earlier with
  | nil => exact fun h => ⟨_, h⟩
  | cons s earlier ih =>
    intro source h
    cases h with
    | cons _ hrest => exact ih hrest

theorem eq_nil_of_unclosed {earlier later : List Segment} {body : List Char}
    (h : Munched source (earlier ++ .unclosed body :: later)) : later = [] := by
  obtain ⟨rest, hrest⟩ := h.exists_rest
  cases hrest with
  | cons hfirst hlater =>
    cases hfirst with
    | lexeme h => cases h.isLexeme
    | unclosed htext _ =>
      have hnil := List.append_right_eq_self.mp htext
      rw [hnil] at hlater
      cases later with
      | nil => rfl
      | cons s later =>
        have hne := hlater.text_ne_nil s List.mem_cons_self
        have htext := hlater.flatMap_text
        rw [List.flatMap_cons] at htext
        exact absurd (List.append_eq_nil_iff.mp htext).1 hne

theorem ne_newline_of_stray {earlier later : List Segment} {c : Char}
    (h : Munched source (earlier ++ .stray c :: later)) : c ≠ '\n' := by
  obtain ⟨rest, hrest⟩ := h.exists_rest
  cases hrest with
  | @cons s rest ss hfirst hlater =>
    cases hfirst with
    | lexeme h => cases h.isLexeme
    | stray _ _ hnone =>
      rintro rfl
      exact hnone (.blank '\n') (.blank (Or.inr (Or.inr (Or.inr rfl)))) ⟨rest, rfl⟩

end Munched

/-! ### Lines -/

theorem lineAfter_append_of_notMem {before text : List Char} (h : '\n' ∉ text) :
    lineAfter (before ++ text) = lineAfter before := by
  rw [lineAfter, lineAfter, List.count_append, List.count_eq_zero.mpr h, Nat.add_zero]

/-- Whether `s` is the segment, among those that follow the text `before`, that has `k` of the
class `p` before it, and ends on `line`. -/
def Placed (p : Segment → Bool) (before : List Char) (ss : List Segment) (k : Nat) (s : Segment)
    (line : Nat) : Prop :=
  ∃ earlier later, ss = earlier ++ s :: later ∧ earlier.countP p = k ∧
    line = lineAfter (before ++ earlier.flatMap text ++ s.text)

namespace Placed

variable {p : Segment → Bool} {before : List Char} {ss : List Segment} {k : Nat} {s u : Segment}
  {line : Nat}

theorem here : Placed p before (s :: ss) 0 s (lineAfter (before ++ s.text)) :=
  ⟨[], ss, rfl, rfl, by simp⟩

theorem cons_pos (hu : p u = true) (h : Placed p (before ++ u.text) ss k s line) :
    Placed p before (u :: ss) (k + 1) s line := by
  obtain ⟨earlier, later, rfl, rfl, rfl⟩ := h
  refine ⟨u :: earlier, later, rfl, List.countP_cons_of_pos hu, ?_⟩
  rw [List.flatMap_cons, List.append_assoc before]

theorem cons_neg (hu : p u = false) (h : Placed p (before ++ u.text) ss k s line) :
    Placed p before (u :: ss) k s line := by
  obtain ⟨earlier, later, rfl, rfl, rfl⟩ := h
  have hneg : ¬ p u = true := by simp [hu]
  refine ⟨u :: earlier, later, rfl, List.countP_cons_of_neg hneg, ?_⟩
  rw [List.flatMap_cons, List.append_assoc before]

end Placed

/-- **The segment of a token**, and its line. -/
theorem Scans.exists_token_placed {before : List Char} {ss : List Segment} {ts : List Token}
    {es : List LexicalError} (h : Scans before ss ts es) :
    ∀ {k : Nat} {t : Token}, ts[k]? = some t →
      ∃ (s : Segment) (line : Nat), Placed isToken before ss k s line ∧ t.line = line ∧
        s.Denotes t.kind t.literal ∧ t.lexeme = String.ofList s.text := by
  induction h with
  | nil =>
    intro k t ht
    cases ht
  | @token before s ss ts es kind value hs _ ih =>
    intro k t ht
    cases k with
    | zero =>
      obtain rfl := Option.some.inj ht
      exact ⟨s, _, .here, rfl, hs, rfl⟩
    | succ k =>
      obtain ⟨u, line, hplaced, hu⟩ := ih ht
      exact ⟨u, line, hplaced.cons_pos hs.isToken.1, hu⟩
  | error hs _ ih =>
    intro k t ht
    obtain ⟨u, line, hplaced, hu⟩ := ih ht
    exact ⟨u, line, hplaced.cons_neg hs.isRefused.2, hu⟩
  | silent hs _ ih =>
    intro k t ht
    obtain ⟨u, line, hplaced, hu⟩ := ih ht
    exact ⟨u, line, hplaced.cons_neg hs.isToken.1, hu⟩

/-- **The segment of an error**, and its line. -/
theorem Scans.exists_error_placed {before : List Char} {ss : List Segment} {ts : List Token}
    {es : List LexicalError} (h : Scans before ss ts es) :
    ∀ {k : Nat} {e : LexicalError}, es[k]? = some e →
      ∃ s : Segment, Placed isRefused before ss k s e.line ∧ s.Refused e.cause := by
  induction h with
  | nil =>
    intro k e he
    cases he
  | token hs _ ih =>
    intro k e he
    obtain ⟨u, hplaced, hu⟩ := ih he
    exact ⟨u, hplaced.cons_neg hs.isToken.2, hu⟩
  | @error before s ss ts es cause hs _ ih =>
    intro k e he
    cases k with
    | zero =>
      obtain rfl := Option.some.inj he
      exact ⟨s, .here, hs⟩
    | succ k =>
      obtain ⟨u, hplaced, hu⟩ := ih he
      exact ⟨u, hplaced.cons_pos hs.isRefused.1, hu⟩
  | silent hs _ ih =>
    intro k e he
    obtain ⟨u, hplaced, hu⟩ := ih he
    exact ⟨u, hplaced.cons_neg hs.isToken.2, hu⟩

namespace Scan

theorem exists_scans_ofSource (source : Source) :
    ∃ ss, Munched source.characters ss ∧
      Scans [] ss (ofSource source).body (ofSource source).errors := by
  have hmunched := munched_segments source.characters
  obtain ⟨ts, es, hscans⟩ := exists_scans (segments source.characters) []
  obtain ⟨rfl, rfl⟩ := hscans.ofSegments_eq hmunched.digital
  exact ⟨_, hmunched, hscans⟩

theorem lastLine_ofSource (source : Source) :
    (ofSource source).lastLine = lineAfter source.characters := by
  show (ofSegments (lineAfter []) (segments source.characters)).lastLine = _
  rw [lastLine_ofSegments, flatMap_text_segments, List.nil_append]

/-- **A token of a source** carries the line on which it ends. -/
theorem exists_tokenAt {source : Source} {k : Nat} {t : Token}
    (ht : (ofSource source).body[k]? = some t) :
    ∃ before, TokenAt source.characters k t before ∧
      t.line = lineAfter (before ++ t.lexeme.toList) := by
  obtain ⟨ss, hmunched, hscans⟩ := exists_scans_ofSource source
  obtain ⟨s, -, ⟨earlier, later, rfl, hcount, rfl⟩, hline, hs, hlexeme⟩ :=
    hscans.exists_token_placed ht
  refine ⟨earlier.flatMap text, ⟨earlier, s, later, hmunched, rfl, hcount, hs, hlexeme⟩, ?_⟩
  rw [hline, hlexeme, String.toList_ofList, List.nil_append]

/-- **A lexical error** carries the last line if a string is not closed, and the line of the
character if it is one that nothing begins with. -/
theorem exists_errorAt {source : Source} {k : Nat} {e : LexicalError}
    (he : (ofSource source).errors[k]? = some e) :
    ∃ before, ErrorAt source.characters k e.cause before ∧
      (e.cause = .unterminatedString → e.line = lineAfter source.characters) ∧
      (e.cause = .unexpectedCharacter → e.line = lineAfter before) := by
  obtain ⟨ss, hmunched, hscans⟩ := exists_scans_ofSource source
  obtain ⟨s, ⟨earlier, later, rfl, hcount, hline⟩, hs⟩ := hscans.exists_error_placed he
  rw [List.nil_append] at hline
  refine ⟨earlier.flatMap text, ⟨earlier, s, later, hmunched, rfl, hcount, hs⟩, fun h => ?_,
    fun h => ?_⟩
  · obtain ⟨cause, line⟩ := e
    cases hs with
    | stray c => cases h
    | unclosed body =>
      obtain rfl := hmunched.eq_nil_of_unclosed
      rw [hline, ← hmunched.flatMap_text]
      simp
  · obtain ⟨cause, line⟩ := e
    cases hs with
    | unclosed body => cases h
    | stray c =>
      have hne := hmunched.ne_newline_of_stray
      rw [hline]
      exact lineAfter_append_of_notMem (by simpa [Segment.text] using hne.symm)

end Scan

/-- The line of an operator is already that of the text before it. -/
theorem TokenAt.lineAfter_eq {source : List Char} {k : Nat} {t : Token} {before : List Char}
    (h : TokenAt source k t before) (hkind : t.kind.isSymbol = true) :
    lineAfter (before ++ t.lexeme.toList) = lineAfter before := by
  obtain ⟨-, s, -, -, -, -, hs, hlexeme⟩ := h
  rw [hs.eq_symbol hkind] at hlexeme
  rw [hlexeme, String.toList_ofList]
  exact lineAfter_append_of_notMem (Kind.newline_notMem_spelling t.kind)

end LoxCalc
