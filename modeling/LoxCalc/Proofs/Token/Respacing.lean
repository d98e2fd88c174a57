import Mathlib.Data.List.Basic
import LoxCalc.Proofs.Parser.Lines
import LoxCalc.Proofs.Token.Seams

/-!
# Tokens and the space between them

The lexemes of a source, joined again with any space between them, are scanned to the same
tokens, and nothing is reported (`Scan.ofSource_joined`).  What stands between two lexemes is a
`Separator`: it begins with a blank and may go on with blanks and comments.

**A lexeme is cut off from what follows by the blank** (`segments_append_blank`), since neither
an open string nor a comment is a token; and by itself it is cut as the segment that it was
(`segments_text`).  So the segments of the joined text are those of the lexemes, with blanks
and comments between them.  Only what is not silent counts, and `audible` picks it out.
-/

namespace LoxCalc

open Segment

/-! ### Joined text -/

/-- Blanks, and comments up to the end of their lines. -/
inductive Filler : List Char → Prop
  | nil : Filler []
  | blank {c : Char} {rest : List Char} (hc : c = ' ' ∨ c = '\t' ∨ c = '\r' ∨ c = '\n')
      (hrest : Filler rest) : Filler (c :: rest)
  | comment {body rest : List Char} (hbody : '\n' ∉ body) (hrest : Filler rest) :
      Filler ('/' :: '/' :: (body ++ '\n' :: rest))

/-- What stands between two lexemes: filler that begins with a blank. -/
inductive Separator : List Char → Prop
  | mk {c : Char} {rest : List Char} (hc : c = ' ' ∨ c = '\t' ∨ c = '\r' ∨ c = '\n')
      (hrest : Filler rest) : Separator (c :: rest)

/-- A text that is made of lexemes in order, with a separator between any two. -/
inductive Joined : List (List Char) → List Char → Prop
  | nil : Joined [] []
  | last (lexeme : List Char) : Joined [lexeme] lexeme
  | cons {lexeme separator text : List Char} {lexemes : List (List Char)} (hne : lexemes ≠ [])
      (hseparator : Separator separator) (htext : Joined lexemes text) :
      Joined (lexeme :: lexemes) (lexeme ++ (separator ++ text))

def lexemes (tokens : List Token) : List (List Char) :=
  tokens.map fun t => t.lexeme.toList

/-! ### What is not silent -/

namespace Segment

def isAudible (s : Segment) : Bool :=
  s.isToken || s.isRefused

/-- Whether a segment ends before every blank. -/
def Settled (s : Segment) : Prop :=
  ∀ b, isBlank b = true → s.EndsBefore b

theorem settled_of_isToken {s : Segment} (h : s.isToken = true) : s.Settled := by
  intro b _
  cases s with
  | comment _ | unclosed _ | blank _ | stray _ => cases h
  | symbol _ | string _ | number _ _ | word _ => trivial

theorem token?_isSome (s : Segment) (line : Nat) : (s.token? line).isSome = s.isToken := by
  rw [token?, Option.isSome_map]
  rfl

end Segment

/-- The tokens and errors among the segments of a text. -/
def audible (text : List Char) : List Segment :=
  (segments text).filter isAudible

theorem audible_blank {b : Char} (hb : isBlank b = true) (text : List Char) :
    audible (b :: text) = audible text := by
  rw [audible, segments_blank hb]
  rfl

theorem audible_append_blank {b : Char} (hb : isBlank b = true) {text : List Char}
    (h : ∀ s ∈ segments text, s.EndsBefore b) (rest : List Char) :
    audible (text ++ b :: rest) = audible text ++ audible rest := by
  rw [audible, segments_append_blank hb h, List.filter_append, ← segments_blank hb rest]
  exact congrArg (audible text ++ ·) (audible_blank hb rest)

/-- **Filler is silent.** -/
theorem Filler.audible_append {filler : List Char} (h : Filler filler) (rest : List Char) :
    audible (filler ++ rest) = audible rest := by
  induction h with
  | nil => rfl
  | blank hc _ ih => rw [List.cons_append, audible_blank (isBlank_iff.mp hc), ih]
  | @comment body filler hbody _ ih =>
    have hcomment := segments_comment hbody
    have hends : ∀ s ∈ segments ('/' :: '/' :: body), s.EndsBefore '\n' := by
      rw [hcomment]
      exact List.forall_mem_singleton.mpr rfl
    have htext : '/' :: '/' :: (body ++ '\n' :: filler) ++ rest =
        '/' :: '/' :: body ++ '\n' :: (filler ++ rest) := by simp
    rw [htext, audible_append_blank rfl hends, ih, audible, hcomment]
    rfl

/-- **Joined lexemes are heard one after the other.** -/
theorem Joined.audible_eq {ls : List (List Char)} {text : List Char} (h : Joined ls text)
    (hls : ∀ l ∈ ls, ∀ s ∈ segments l, s.Settled) : audible text = ls.flatMap audible := by
  induction h with
  | nil => rw [audible, segments]; rfl
  | last lexeme => exact (List.flatMap_singleton audible lexeme).symm
  | @cons lexeme separator text ls hne hseparator _ ih =>
    obtain ⟨hlexeme, hls⟩ := List.forall_mem_cons.mp hls
    obtain ⟨hc, hfiller⟩ := hseparator
    rename_i c filler
    have hblank := isBlank_iff.mp hc
    have hends : ∀ s ∈ segments lexeme, s.EndsBefore c := fun s hs => hlexeme s hs c hblank
    rw [List.cons_append, audible_append_blank hblank hends, hfiller.audible_append, ih hls,
      List.flatMap_cons]

/-! ### The lexemes of a source -/

def tokenSegments (source : List Char) : List Segment :=
  (segments source).filter isToken

theorem isLexeme_of_isToken {source : List Char} {s : Segment} (hs : s ∈ segments source)
    (h : s.isToken = true) : s.IsLexeme := by
  obtain ⟨left, hfirst⟩ := (munched_segments source).exists_isFirst s hs
  cases hfirst with
  | lexeme hlongest => exact hlongest.isLexeme
  | unclosed _ _ => cases h
  | stray _ _ _ => cases h

theorem audible_text {source : List Char} {s : Segment} (hs : s ∈ tokenSegments source) :
    audible s.text = [s] := by
  obtain ⟨hmem, htoken⟩ := List.mem_filter.mp hs
  rw [audible, segments_text (isLexeme_of_isToken hmem htoken),
    List.filter_cons_of_pos (by rw [isAudible, htoken]; rfl)]
  rfl

theorem filter_isToken_segments (text : List Char) :
    (segments text).filter isToken = (audible text).filter isToken := by
  rw [audible, List.filter_filter]
  congr 1
  funext s
  rw [isAudible]
  cases s.isToken <;> rfl

/-- Without their lines, the tokens of segments are those of the segments that are tokens. -/
theorem filterMap_token? (ss : List Segment) :
    ss.filterMap (token? 0) = (ss.filter isToken).filterMap (token? 0) := by
  rw [List.filterMap_filter]
  refine List.filterMap_congr fun s _ => ?_
  cases h : s.isToken with
  | true => rfl
  | false =>
    rw [← s.token?_isSome 0] at h
    exact Option.not_isSome_iff_eq_none.mp (Bool.eq_false_iff.mp h)

theorem lexemes_body (source : Source) :
    lexemes (Scan.ofSource source).body = (tokenSegments source.characters).map text := by
  have hunlined : lexemes (Scan.ofSource source).body =
      lexemes ((Scan.ofSource source).body.map Token.unlined) := by
    rw [lexemes, lexemes, List.map_map]
    rfl
  have hbody : (Scan.ofSource source).body.map Token.unlined =
      (segments source.characters).filterMap (token? 0) := Scan.map_unlined_body _ 1
  rw [hunlined, hbody, filterMap_token?, lexemes, List.map_filterMap, tokenSegments,
    ← List.filterMap_eq_map]
  refine List.filterMap_congr fun s hs => ?_
  obtain ⟨meaning, hmeaning⟩ := Option.isSome_iff_exists.mp (List.mem_filter.mp hs).2
  rw [token?, hmeaning]
  exact congrArg some String.toList_ofList

/-- **The joined lexemes of a source** have the segments of its tokens, with the end of input
among the lexemes or without it. -/
theorem audible_joined {source : Source} {text : List Char}
    (h : Joined (lexemes (Scan.ofSource source).tokens) text ∨
      Joined (lexemes (Scan.ofSource source).body) text) :
    audible text = tokenSegments source.characters := by
  have hnil : segments [] = [] := by rw [segments]
  have hsettled : ∀ l ∈ lexemes (Scan.ofSource source).body, ∀ s ∈ segments l, s.Settled := by
    intro l hl s hs
    rw [lexemes_body] at hl
    obtain ⟨u, hu, rfl⟩ := List.mem_map.mp hl
    obtain ⟨hmem, htoken⟩ := List.mem_filter.mp hu
    rw [segments_text (isLexeme_of_isToken hmem htoken)] at hs
    obtain rfl := List.mem_singleton.mp hs
    exact settled_of_isToken htoken
  have hbody : (lexemes (Scan.ofSource source).body).flatMap audible =
      tokenSegments source.characters := by
    rw [lexemes_body, List.flatMap_map]
    calc (tokenSegments source.characters).flatMap (fun s => audible s.text)
        = (tokenSegments source.characters).flatMap (fun s => [s]) :=
          List.flatMap_congr fun s hs => audible_text hs
      _ = tokenSegments source.characters := List.flatMap_singleton' _
  rcases h with h | h
  · have htokens : lexemes (Scan.ofSource source).tokens =
        lexemes (Scan.ofSource source).body ++ [[]] := List.map_append
    rw [htokens] at h
    have hall : ∀ l ∈ lexemes (Scan.ofSource source).body ++ [[]], ∀ s ∈ segments l, s.Settled := by
      intro l hl s hs
      rcases List.mem_append.mp hl with hl | hl
      · exact hsettled l hl s hs
      · rw [List.mem_singleton.mp hl, hnil] at hs
        cases hs
    rw [h.audible_eq hall, List.flatMap_append, hbody, List.flatMap_singleton, audible, hnil]
    exact List.append_nil _
  · rw [h.audible_eq hsettled, hbody]

/-! ### Scanning joined text -/

namespace Scan

theorem errors_eq_nil {text : List Char} (h : ∀ s ∈ audible text, s.isToken = true) :
    (ofCharacters text).errors = [] := by
  have hnone : (segments text).filterMap cause? = [] := by
    refine List.filterMap_eq_nil_iff.mpr fun s hs => ?_
    have hsilent : s.isRefused = true → s.isToken = true := fun hrefused =>
      h s (List.mem_filter.mpr ⟨hs, by rw [isAudible, hrefused, Bool.or_true]⟩)
    cases s with
    | unclosed _ | stray _ => cases hsilent rfl
    | _ => rfl
  rw [← map_cause_errors _ 1] at hnone
  exact List.map_eq_nil_iff.mp hnone

/-- **Tokens survive re-spacing.**  The lexemes of the tokens of a source, whatever errors it
has, joined with separators, are scanned without an error to tokens of the same kinds, lexemes
and values.  So they are parsed, within any limit, to the same tree up to lines, or refused at
the same position for the same cause. -/
theorem ofSource_joined {source : Source} {text : String}
    (h : Joined (lexemes (ofSource source).tokens) text.toList ∨
      Joined (lexemes (ofSource source).body) text.toList) :
    (ofSource (.text text)).errors = [] ∧
      (ofSource (.text text)).tokens.map Token.unlined =
        (ofSource source).tokens.map Token.unlined ∧
      ∀ a : Allowance Parser.Opening,
        Parser.unlinedOutcome ((Parser.ofStream (.ofScan (ofSource (.text text)))).parse a).1 =
            Parser.unlinedOutcome ((Parser.ofStream (.ofScan (ofSource source))).parse a).1 ∧
          ((Parser.ofStream (.ofScan (ofSource (.text text)))).parse a).2.position =
            ((Parser.ofStream (.ofScan (ofSource source))).parse a).2.position := by
  have haudible : audible text.toList = tokenSegments source.characters := audible_joined h
  have htoken : ∀ s ∈ audible text.toList, s.isToken = true := by
    rw [haudible]
    exact fun s hs => (List.mem_filter.mp hs).2
  have hbody : (ofSource (.text text)).body.map Token.unlined =
      (ofSource source).body.map Token.unlined := by
    show (ofSegments 1 (segments text.toList)).body.map Token.unlined =
      (ofSegments 1 (segments source.characters)).body.map Token.unlined
    rw [map_unlined_body, map_unlined_body, filterMap_token?, filterMap_token? (segments _),
      filter_isToken_segments, List.filter_eq_self.mpr htoken, haudible]
    rfl
  have htokens : (ofSource (.text text)).tokens.map Token.unlined =
      (ofSource source).tokens.map Token.unlined := by
    rw [tokens, tokensAfter, tokens, tokensAfter, List.map_append, List.map_append, hbody]
    rfl
  refine ⟨errors_eq_nil htoken, htokens, fun a => Parser.parse_eq_of_unlined a ?_⟩
  rw [TokenStream.unlined, TokenStream.unlined, TokenStream.mk.injEq]
  exact htokens

/-- A string over two lines that holds slashes, then a division, then half an operator and a
character that begins nothing. -/
def slashesInString : Source := .text "\"//\n\"/!@"

theorem lexemes_slashesInString : lexemes (ofSource slashesInString).tokens =
    [['"', '/', '/', '\n', '"'], ['/'], ['!'], []] := by
  have hstring : segments ('"' :: (['/', '/', '\n'] ++ '"' :: ['/', '!', '@'])) =
      .string ['/', '/', '\n'] :: segments ['/', '!', '@'] := segments_string (by decide) _
  have hslash : NotBegun (· == '/') ['!', '@'] := rfl
  have hbang : NotBegun (· == '=') ['@'] := rfl
  have hstray : segments ['@'] = [.stray '@'] := segments_single rfl
  show lexemes (ofSegments 1
    (segments ('"' :: (['/', '/', '\n'] ++ '"' :: ['/', '!', '@'])))).tokens = _
  rw [hstring, segments_slash hslash, segments_bang hbang, hstray]
  rfl

def respacedSlashes : String := "\"//\n\" /\t// !\n!\r"

theorem ofSource_respacedSlashes :
    (Joined (lexemes (ofSource slashesInString).tokens) respacedSlashes.toList ∨
        Joined (lexemes (ofSource slashesInString).body) respacedSlashes.toList) ∧
      (ofSource (.text respacedSlashes)).errors = [] ∧
      (ofSource (.text respacedSlashes)).tokens.map Token.unlined =
        (ofSource slashesInString).tokens.map Token.unlined ∧
      ∀ a : Allowance Parser.Opening,
        Parser.unlinedOutcome
              ((Parser.ofStream (.ofScan (ofSource (.text respacedSlashes)))).parse a).1 =
            Parser.unlinedOutcome
              ((Parser.ofStream (.ofScan (ofSource slashesInString))).parse a).1 ∧
          ((Parser.ofStream (.ofScan (ofSource (.text respacedSlashes)))).parse a).2.position =
            ((Parser.ofStream (.ofScan (ofSource slashesInString))).parse a).2.position := by
  have hspace : Separator [' '] := ⟨Or.inl rfl, .nil⟩
  have hcomment : Separator ['\t', '/', '/', ' ', '!', '\n'] :=
    ⟨Or.inr (Or.inl rfl), @Filler.comment [' ', '!'] [] (by decide) .nil⟩
  have hreturn : Separator ['\r'] := ⟨Or.inr (Or.inr (Or.inl rfl)), .nil⟩
  have hjoined : Joined (lexemes (ofSource slashesInString).tokens) respacedSlashes.toList := by
    rw [lexemes_slashesInString]
    exact .cons (List.cons_ne_nil _ _) hspace (.cons (List.cons_ne_nil _ _) hcomment
      (.cons (List.cons_ne_nil _ _) hreturn (.last [])))
  exact ⟨Or.inl hjoined, ofSource_joined (Or.inl hjoined)⟩

end Scan

end LoxCalc
