import LoxCalc.Proofs.Number.ReadBack
import LoxCalc.Proofs.Token.Lexeme

/-!
# The tokens of a source

`Munched` cuts a source into its longest lexemes.  Here every segment gets its meaning:
`Segment.Denotes` says of which kind its token is and which value it carries, and
`Scans` goes through segments one after the other and says which tokens and which errors
come of them.  **The line of either is read off the source**: it is one more than the
newlines before the end of the segment.

`ofSource_iff_munched` is the account of scanning that results: the tokens and the errors of a
source are those of its segments, in order, and an end of input.
-/

namespace LoxCalc

/-- The decimal that digits denote, with at most one point among them: the digits behind
the point are its places. -/
def Decimal.ofText (text : List Char) : Decimal :=
  ⟨Nat.ofDigitChars 10 (text.filter (· ≠ '.')) 0, -((text.dropWhile (· ≠ '.')).tail.length : Int)⟩

/-- The line on which a text ends that begins on the first line. -/
def lineAfter (text : List Char) : Nat :=
  1 + text.count '\n'

namespace Segment

/-- The kind of the token that a segment stands for, and the value it carries. -/
inductive Denotes : Segment → Kind → Value → Prop
  | symbol (kind : Kind) : Denotes (.symbol kind) kind .nil
  | string (body : List Char) : Denotes (.string body) .string (.string (String.ofList body))
  | number (whole fraction : List Char) :
      Denotes (.number whole fraction) .number
        (.number ((Decimal.ofText (Segment.number whole fraction).text).toNumber false))
  | keyword {text : List Char} {kind : Kind} (hkind : kind ∈ Kind.keywords)
      (htext : kind.spelling = text) : Denotes (.word text) kind .nil
  | identifier {text : List Char} (h : ∀ kind ∈ Kind.keywords, kind.spelling ≠ text) :
      Denotes (.word text) .identifier .nil

inductive Refused : Segment → LexicalError.Cause → Prop
  | unclosed (body : List Char) : Refused (.unclosed body) .unterminatedString
  | stray (c : Char) : Refused (.stray c) .unexpectedCharacter

inductive Silent : Segment → Prop
  | blank (c : Char) : Silent (.blank c)
  | comment (body : List Char) : Silent (.comment body)

end Segment

open Segment

/-- The tokens and the errors of segments that follow the text `before`. -/
inductive Scans : (before : List Char) → List Segment → List Token → List LexicalError → Prop
  | nil {before : List Char} : Scans before [] [] []
  | token {before : List Char} {s : Segment} {ss : List Segment} {ts : List Token}
      {es : List LexicalError} {kind : Kind} {value : Value} (h : s.Denotes kind value)
      (hrest : Scans (before ++ s.text) ss ts es) :
      Scans before (s :: ss)
        (⟨kind, String.ofList s.text, value, lineAfter (before ++ s.text)⟩ :: ts) es
  | error {before : List Char} {s : Segment} {ss : List Segment} {ts : List Token}
      {es : List LexicalError} {cause : LexicalError.Cause} (h : s.Refused cause)
      (hrest : Scans (before ++ s.text) ss ts es) :
      Scans before (s :: ss) ts (⟨cause, lineAfter (before ++ s.text)⟩ :: es)
  | silent {before : List Char} {s : Segment} {ss : List Segment} {ts : List Token}
      {es : List LexicalError} (h : s.Silent) (hrest : Scans (before ++ s.text) ss ts es) :
      Scans before (s :: ss) ts es

/-! ### Kinds and values -/

theorem Kind.ofWord_of_mem {k : Kind} (h : k ∈ keywords) : ofWord k.spelling = k := by
  revert k
  decide

theorem Kind.ofWord_eq_identifier {word : List Char} (h : ∀ k ∈ keywords, k.spelling ≠ word) :
    ofWord word = .identifier := by
  have hnone : (keywords.find? fun k => decide (k.spelling = word)) = none :=
    List.find?_eq_none.mpr fun k hk => by simpa using h k hk
  rw [ofWord, hnone, Option.getD_none]

theorem Decimal.ofText_number {whole fraction : List Char}
    (h : ∀ c ∈ whole ++ fraction, Digit c) :
    ofText (Segment.number whole fraction).text =
      ⟨Nat.ofDigitChars 10 (whole ++ fraction) 0, -(fraction.length : Int)⟩ := by
  have hpoint : ∀ ds : List Char, (∀ c ∈ ds, Digit c) → ∀ c ∈ ds, decide (c ≠ '.') = true := by
    intro ds hds c hc
    refine decide_eq_true fun heq => absurd (hds c hc).1 ?_
    rw [heq]
    decide
  have hwhole := hpoint whole fun c hc => h c (List.mem_append_left _ hc)
  have hfraction := hpoint fraction fun c hc => h c (List.mem_append_right _ hc)
  cases fraction with
  | nil =>
    have hdrop : whole.dropWhile (· ≠ '.') = [] := List.dropWhile_eq_nil_iff.mpr hwhole
    rw [ofText, Segment.text, List.filter_eq_self.mpr hwhole, hdrop, List.append_nil]
    rfl
  | cons d more =>
    have hstop : NotBegun (fun c => decide (c ≠ '.')) ('.' :: d :: more) := rfl
    have hfilter : ('.' :: d :: more).filter (· ≠ '.') = d :: more := by
      rw [List.filter_cons_of_neg (by simp), List.filter_eq_self.mpr hfraction]
    rw [ofText, Segment.text_number (List.cons_ne_nil _ _), List.filter_append,
      List.filter_eq_self.mpr hwhole, hfilter, dropWhile_run hwhole hstop, List.tail_cons]

namespace Segment

def Digital : Segment → Prop
  | .number whole fraction => ∀ c ∈ whole ++ fraction, Digit c
  | _ => True

theorem digital_of_isFirst {source : List Char} {s : Segment} (h : IsFirst source s) :
    s.Digital := by
  cases h with
  | lexeme h =>
    cases h.isLexeme with
    | number _ hdigits => exact hdigits
    | _ => trivial
  | _ => trivial

theorem meaning?_of_denotes {s : Segment} (hs : s.Digital) {kind : Kind} {value : Value}
    (h : s.Denotes kind value) : s.meaning? = some (kind, value) := by
  cases h with
  | symbol _ | string _ => rfl
  | number whole fraction => rw [Decimal.ofText_number hs]; rfl
  | keyword hkind htext => rw [meaning?, ← htext, Kind.ofWord_of_mem hkind]
  | identifier h => rw [meaning?, Kind.ofWord_eq_identifier h]

theorem Denotes.error?_eq_none {s : Segment} {kind : Kind} {value : Value}
    (h : s.Denotes kind value) (line : Nat) : s.error? line = none := by
  cases h <;> rfl

theorem newlines_eq (before : List Char) (s : Segment) :
    lineAfter before + s.newlines = lineAfter (before ++ s.text) := by
  rw [lineAfter, lineAfter, List.count_append, newlines, Nat.add_assoc]

end Segment

theorem Munched.digital {source : List Char} {ss : List Segment} (h : Munched source ss) :
    ∀ s ∈ ss, s.Digital := by
  intro s hs
  obtain ⟨left, hfirst⟩ := h.exists_isFirst s hs
  exact digital_of_isFirst hfirst

/-! ### Scans -/

namespace Scan

theorem lastLine_ofSegments (ss : List Segment) : ∀ before : List Char,
    (ofSegments (lineAfter before) ss).lastLine = lineAfter (before ++ ss.flatMap text) := by
  induction ss with
  | nil => intro before; rw [List.flatMap_nil, List.append_nil]; rfl
  | cons s ss ih =>
    intro before
    rw [ofSegments, newlines_eq]
    show (ofSegments (lineAfter (before ++ s.text)) ss).lastLine = _
    rw [ih, List.flatMap_cons, List.append_assoc]

end Scan

theorem Scans.ofSegments_eq {before : List Char} {ss : List Segment} {ts : List Token}
    {es : List LexicalError} (h : Scans before ss ts es) (hss : ∀ s ∈ ss, s.Digital) :
    (Scan.ofSegments (lineAfter before) ss).body = ts ∧
      (Scan.ofSegments (lineAfter before) ss).errors = es := by
  induction h with
  | nil => exact ⟨rfl, rfl⟩
  | @token before s ss ts es kind value h _ ih =>
    obtain ⟨hs, hss⟩ := List.forall_mem_cons.mp hss
    obtain ⟨rfl, rfl⟩ := ih hss
    have hmeaning := meaning?_of_denotes hs h
    simp only [Scan.ofSegments, newlines_eq, token?, hmeaning, h.error?_eq_none]
    exact ⟨rfl, rfl⟩
  | @error before s ss ts es cause h _ ih =>
    obtain ⟨hs, hss⟩ := List.forall_mem_cons.mp hss
    obtain ⟨rfl, rfl⟩ := ih hss
    simp only [Scan.ofSegments, newlines_eq]
    cases h <;> exact ⟨rfl, rfl⟩
  | @silent before s ss ts es h _ ih =>
    obtain ⟨hs, hss⟩ := List.forall_mem_cons.mp hss
    obtain ⟨rfl, rfl⟩ := ih hss
    simp only [Scan.ofSegments, newlines_eq]
    cases h <;> exact ⟨rfl, rfl⟩

theorem exists_denotes_word (text : List Char) :
    ∃ kind, (Segment.word text).Denotes kind .nil := by
  by_cases h : ∃ kind ∈ Kind.keywords, kind.spelling = text
  · obtain ⟨kind, hkind, htext⟩ := h
    exact ⟨kind, .keyword hkind htext⟩
  · exact ⟨.identifier, .identifier fun kind hkind htext => h ⟨kind, hkind, htext⟩⟩

/-- **Something comes of all segments**: each denotes a token, is refused, or is silent. -/
theorem exists_scans (ss : List Segment) : ∀ before : List Char,
    ∃ ts es, Scans before ss ts es := by
  induction ss with
  | nil => exact fun before => ⟨[], [], .nil⟩
  | cons s ss ih =>
    intro before
    obtain ⟨ts, es, hrest⟩ := ih (before ++ s.text)
    cases s with
    | blank c => exact ⟨_, _, .silent (.blank c) hrest⟩
    | comment body => exact ⟨_, _, .silent (.comment body) hrest⟩
    | symbol kind => exact ⟨_, _, .token (.symbol kind) hrest⟩
    | string body => exact ⟨_, _, .token (.string body) hrest⟩
    | number whole fraction => exact ⟨_, _, .token (.number whole fraction) hrest⟩
    | word text =>
      obtain ⟨kind, hkind⟩ := exists_denotes_word text
      exact ⟨_, _, .token hkind hrest⟩
    | unclosed body => exact ⟨_, _, .error (.unclosed body) hrest⟩
    | stray c => exact ⟨_, _, .error (.stray c) hrest⟩

/-- **Scanning is munching.**  A source is cut into non-empty segments, each the first
one of what is left, and nothing is lost; the tokens are those of its segments, in order,
and an end of input on the last line; the errors are those of its segments, in order. -/
theorem Scan.ofSource_iff_munched (source : Source) (tokens : List Token) (errors : List LexicalError) :
    ((ofSource source).tokens = tokens ∧ (ofSource source).errors = errors) ↔
      ∃ ss ts, Munched source.characters ss ∧ ss.flatMap text = source.characters ∧
        (∀ s ∈ ss, s.text ≠ []) ∧ Scans [] ss ts errors ∧
        tokens = ts ++ [⟨.eof, "", .nil, lineAfter source.characters⟩] := by
  have hmunched := munched_segments source.characters
  have hlast : (ofSource source).lastLine = lineAfter source.characters := by
    show (ofSegments (lineAfter []) (segments source.characters)).lastLine = _
    rw [lastLine_ofSegments, hmunched.flatMap_text, List.nil_append]
  have htokens : (ofSource source).tokens =
      (ofSource source).body ++ [⟨.eof, "", .nil, lineAfter source.characters⟩] := by
    rw [← hlast]
    rfl
  constructor
  · rintro ⟨rfl, rfl⟩
    obtain ⟨ts, es, hscans⟩ := exists_scans (segments source.characters) []
    obtain ⟨hbody, herrors⟩ := hscans.ofSegments_eq hmunched.digital
    refine ⟨segments source.characters, ts, hmunched, hmunched.flatMap_text,
      hmunched.text_ne_nil, ?_, ?_⟩
    · rw [← herrors] at hscans
      exact hscans
    · rw [htokens]
      exact congrArg (· ++ _) hbody
  · rintro ⟨ss, ts, hss, -, -, hscans, rfl⟩
    obtain rfl := munched_iff.mp hss
    obtain ⟨hbody, herrors⟩ := hscans.ofSegments_eq hmunched.digital
    refine ⟨?_, herrors⟩
    rw [htokens]
    exact congrArg (· ++ _) hbody

end LoxCalc
