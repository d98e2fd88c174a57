import LoxCalc.Proofs.Nesting.Walks
import LoxCalc.Proofs.Parser.Completeness
import LoxCalc.Proofs.Token.Lexeme

/-!
# Trees of sources

What the scanner and the parser make of a source is well-formed, whatever the source is:
**a tree that was read from a source is faultless**.  The number and string tokens of a
scan carry a number and a string; the grammar lets nothing but operators that evaluation
knows become one of the tree; and the parser never stands behind the end of input.

None of this depends on lexical errors or on limits.  A parse within its limit that gives
a tree gives the tree of the parse without one.

* `Scan.literalTyped_ofSource`: the tokens of a source.
* `Parser.faultless_of_parse`: the trees of such tokens.
* `Parser.position_parse_le`: the place where a parser stops.
-/

namespace LoxCalc

/-! ### Tokens of a source -/

theorem Kind.ofWord_mem (word : List Char) : ofWord word ∈ .identifier :: keywords := by
  rw [ofWord]
  cases h : keywords.find? fun k => k.spelling = word with
  | none => exact List.mem_cons_self
  | some k => exact List.mem_cons_of_mem _ (List.mem_of_find?_eq_some h)

/-- The token of a segment carries what its kind asks for, and it is no end of input. -/
theorem Segment.token_of_isFirst {left : List Char} {s : Segment} (h : IsFirst left s)
    {line : Nat} {t : Token} (ht : s.token? line = some t) : t.LiteralTyped ∧ t.kind ≠ .eof := by
  have hsymbol : ∀ kind : Kind, kind.isSymbol = true →
      kind ≠ .number ∧ kind ≠ .string ∧ kind ≠ .eof := by
    intro kind hkind
    refine ⟨?_, ?_, ?_⟩ <;>
    · rintro rfl
      exact absurd hkind (by decide)
  have hword : ∀ kind ∈ Kind.identifier :: Kind.keywords,
      kind ≠ .number ∧ kind ≠ .string ∧ kind ≠ .eof := by
    decide
  cases s with
  | symbol kind =>
    cases ht
    have hkind : kind.isSymbol = true := by
      cases h with
      | lexeme h => cases h.isLexeme with | symbol hkind => exact hkind
    obtain ⟨hnumber, hstring, heof⟩ := hsymbol kind hkind
    exact ⟨⟨fun hn => absurd hn hnumber, fun hs => absurd hs hstring⟩, heof⟩
  | word text =>
    cases ht
    obtain ⟨hnumber, hstring, heof⟩ := hword _ (Kind.ofWord_mem text)
    exact ⟨⟨fun hn => absurd hn hnumber, fun hs => absurd hs hstring⟩, heof⟩
  | string body => cases ht; exact ⟨⟨nofun, fun _ => rfl⟩, nofun⟩
  | number whole fraction => cases ht; exact ⟨⟨fun _ => rfl, nofun⟩, nofun⟩
  | blank _ | comment _ | unclosed _ | stray _ => cases ht

namespace Scan

theorem exists_token_of_mem_body (ss : List Segment) : ∀ (line : Nat) (t : Token),
    t ∈ (ofSegments line ss).body → ∃ s ∈ ss, ∃ line, s.token? line = some t := by
  induction ss with
  | nil => exact fun line t ht => nomatch ht
  | cons s ss ih =>
    intro line t ht
    rcases List.mem_append.mp ht with hfirst | hrest
    · exact ⟨s, List.mem_cons_self, _, Option.mem_toList.mp hfirst⟩
    · obtain ⟨s', hs', hline⟩ := ih _ t hrest
      exact ⟨s', List.mem_cons_of_mem _ hs', hline⟩

theorem token_of_mem_body (source : Source) :
    ∀ t ∈ (ofSource source).body, t.LiteralTyped ∧ t.kind ≠ .eof := by
  intro t ht
  obtain ⟨s, hs, line, hline⟩ := exists_token_of_mem_body _ _ t ht
  obtain ⟨left, hfirst⟩ := (munched_segments source.characters).exists_isFirst s hs
  exact Segment.token_of_isFirst hfirst hline

/-- **A source has one end of input only**, behind all its tokens. -/
@[simp] theorem body_ofScan_ofSource (source : Source) :
    (TokenStream.ofScan (ofSource source)).body = (ofSource source).body :=
  TokenStream.body_ofScan fun t ht => (token_of_mem_body source t ht).2

theorem literalTyped_ofSource (source : Source) :
    ∀ t ∈ (TokenStream.ofScan (ofSource source)).body, t.LiteralTyped := by
  rw [body_ofScan_ofSource]
  exact fun t ht => (token_of_mem_body source t ht).1

end Scan

/-! ### Trees of typed tokens -/

theorem Expr.allLiterals_of_marks {p : Value → Prop} {e : Expr}
    (h : ∀ kind v, .literal kind v ∈ e.marks → p v) : e.AllLiterals p := by
  induction e with
  | literal v => exact h _ v List.mem_cons_self
  | grouping e ih =>
    exact ih fun kind v hv => h kind v (List.mem_cons_of_mem _ (List.mem_append_left _ hv))
  | unary op e ih => exact ih fun kind v hv => h kind v (List.mem_cons_of_mem _ hv)
  | binary l op r ihl ihr =>
    refine ⟨ihl fun kind v hv => h kind v ?_, ihr fun kind v hv => h kind v ?_⟩ <;>
      simp [marks, hv]
  | conditional c t e ihc iht ihe =>
    refine ⟨ihc fun kind v hv => h kind v ?_, iht fun kind v hv => h kind v ?_,
      ihe fun kind v hv => h kind v ?_⟩ <;> simp [marks, hv]
  | absent | bare _ => trivial

theorem Token.native_of_mark {t : Token} (ht : t.LiteralTyped) {kind : Option Kind} {v : Value}
    (h : t.mark = .literal kind v) : v.Native := by
  obtain ⟨k, lexeme, literal, line⟩ := t
  obtain ⟨hnumber, hstring⟩ := ht
  cases k <;> cases h <;> try trivial
  · cases literal <;> first | trivial | exact absurd (hstring rfl) nofun
  · cases literal <;> first | trivial | exact absurd (hnumber rfl) nofun

namespace Parser

theorem reading_of_parse {a : Allowance Opening} {s : TokenStream}
    (htyped : ∀ t ∈ s.body, t.LiteralTyped) {e : Expr} (h : ((ofStream s).parse a).1 = .ok e) :
    e.marks = s.body.map Token.mark ∧ e.Shaped := by
  rw [parse_eq_ok_iff_read] at h
  have hunbounded : (read ⟨none, a.cost⟩ .initial s.body).result = .ok e := by
    rcases read_mono a.cost (m := a.frames) (n := none) trivial s.body .initial with heq | hstop
    · rw [← heq]
      exact h
    · rw [h] at hstop
      cases hstop
  obtain ⟨q, hrun, hfinish⟩ := (read_eq_ok_iff rfl e).mp hunbounded
  exact Phase.finish_sound htyped hrun hfinish

/-- **A tree that was read from typed tokens is faultless.** -/
theorem faultless_of_parse {a : Allowance Opening} {s : TokenStream}
    (htyped : ∀ t ∈ s.body, t.LiteralTyped) {e : Expr} (h : ((ofStream s).parse a).1 = .ok e) :
    e.Faultless := by
  obtain ⟨hmarks, hshaped⟩ := reading_of_parse htyped h
  refine ⟨Expr.evaluable_of_shaped hshaped, Expr.allLiterals_of_marks fun kind v hv => ?_⟩
  rw [hmarks] at hv
  obtain ⟨t, ht, hmark⟩ := List.mem_map.mp hv
  exact Token.native_of_mark (htyped t ht) hmark

theorem read_count_le (a : Allowance Opening) (tokens : List Token) : ∀ p : Phase,
    (read a p tokens).count ≤ tokens.length := by
  induction tokens with
  | nil => exact fun p => Nat.le_of_eq (stopAt_count a p p.finish)
  | cons t ts ih =>
    intro p
    rw [read]
    split
    · rw [stopAt_count]
      exact Nat.zero_le _
    · split
      · exact Nat.succ_le_succ (ih _)
      · exact Nat.succ_le_succ (Nat.zero_le _)

/-- **A parser never stands behind the end of input.** -/
theorem position_parse_le (a : Allowance Opening) (s : TokenStream) :
    ((ofStream s).parse a).2.position ≤ s.body.length := by
  have hposition : ((ofStream s).parse a).2.position = (read a .initial s.body).count := by
    rw [parse_eq]
    exact Nat.zero_add _
  rw [hposition]
  exact read_count_le a s.body .initial

end Parser

end LoxCalc
