import LoxCalc.Proofs.Expr.Respelling
import LoxCalc.Proofs.Script.Placement

/-!
# Trees of sources can be written

A source holds its operators as the scanner makes them, and its values are those that source has
literals for.  **So every tree of a source can be written as source again**
(`Scan.writable_of_tree?`), whatever lexical errors the source has.

The proof goes from segments to tokens to marks to trees, as it does in `SourceTrees` for what a
token carries: `Token.WellSpelled` is what is kept on this way.
-/

namespace LoxCalc

/-- Whether a token is spelled as its kind asks for: a symbol has the usual spelling of its kind,
and the value can be written. -/
structure Token.WellSpelled (t : Token) : Prop where
  asScanned : t.kind.isSymbol = true → t.AsScanned
  writable : t.literal.Writable

theorem Segment.wellSpelled_of_isFirst {left : List Char} {s : Segment} (h : IsFirst left s)
    {line : Nat} {t : Token} (ht : s.token? line = some t) : t.WellSpelled := by
  have hword : ∀ kind ∈ Kind.identifier :: Kind.keywords, kind.isSymbol = false := by
    decide
  cases s with
  | symbol kind =>
    cases ht
    exact ⟨fun _ => rfl, trivial⟩
  | word text =>
    cases ht
    refine ⟨fun hsymbol => ?_, trivial⟩
    rw [hword _ (Kind.ofWord_mem text)] at hsymbol
    cases hsymbol
  | string body =>
    cases ht
    refine ⟨nofun, ?_⟩
    cases h with
    | lexeme h =>
      cases h.isLexeme with
      | string hbody =>
        show '"' ∉ (String.ofList body).toList
        rwa [String.toList_ofList]
  | number whole fraction => cases ht; exact ⟨nofun, trivial⟩
  | blank _ | comment _ | unclosed _ | stray _ => cases ht

theorem Scan.wellSpelled_ofSource (source : Source) :
    ∀ t ∈ (ofSource source).body, t.WellSpelled := by
  intro t ht
  obtain ⟨s, hs, line, hline⟩ := exists_token_of_mem_body _ _ t ht
  obtain ⟨left, hfirst⟩ := (munched_segments source.characters).exists_isFirst s hs
  exact Segment.wellSpelled_of_isFirst hfirst hline

/-- What holds of nil, of booleans and of the value of a token holds of the value of its mark. -/
theorem Token.value_of_mark {p : Value → Prop} (hnil : p .nil) (hbool : ∀ b, p (.bool b))
    {t : Token} (ht : p t.literal) {kind : Option Kind} {v : Value}
    (h : t.mark = .literal kind v) : p v := by
  obtain ⟨k, lexeme, literal, line⟩ := t
  cases k <;> cases h <;> first | exact ht | exact hnil | exact hbool _

/-- What holds of nil, of booleans and of the values of all tokens of a source holds of the
literals of its tree. -/
theorem Scan.allLiterals_of_tree? {p : Value → Prop} (hnil : p .nil) (hbool : ∀ b, p (.bool b))
    {limits : Limits} {source : Source} {tree : Expr}
    (htokens : ∀ t ∈ (Scan.ofSource source).body, p t.literal)
    (h : (Scan.ofSource source).tree? limits = some tree) : tree.AllLiterals p := by
  obtain ⟨hmarks, -⟩ := Scan.reading_of_tree? h
  refine Expr.allLiterals_of_marks fun kind v hv => ?_
  rw [hmarks] at hv
  obtain ⟨t, ht, hmark⟩ := List.mem_map.mp hv
  exact Token.value_of_mark hnil hbool (htokens t ht) hmark

theorem Expr.operatorsKnown_of_shaped {e : Expr} (he : e.Shaped)
    (h : ∀ op, .operator op ∈ e.marks → op.kind.isSymbol = true → op.AsScanned) :
    e.OperatorsKnown := by
  induction e with
  | literal v => trivial
  | grouping e ih =>
    exact ih he fun op hop => h op (List.mem_cons_of_mem _ (List.mem_append_left _ hop))
  | unary op e ih =>
    obtain ⟨hkind, -, he⟩ := he
    have hsymbol : op.kind.isSymbol = true := by rcases hkind with hk | hk <;> rw [hk] <;> rfl
    exact ⟨hkind, h op List.mem_cons_self hsymbol,
      ih he fun op' hop => h op' (List.mem_cons_of_mem _ hop)⟩
  | binary l op r ihl ihr =>
    obtain ⟨n, hlevel, hl, hr, -⟩ := shaped_binary_iff.mp he
    refine ⟨by rw [hlevel]; rfl, h op (by simp [marks]) (isSymbol_of_level? hlevel),
      ihl hl fun op' hop => h op' ?_, ihr hr fun op' hop => h op' ?_⟩ <;> simp [marks, hop]
  | conditional c t e ihc iht ihe =>
    obtain ⟨hc, -, ht, he⟩ := he
    refine ⟨ihc hc fun op hop => h op ?_, iht ht fun op hop => h op ?_,
      ihe he fun op hop => h op ?_⟩ <;> simp [marks, hop]
  | absent | bare _ => exact he.elim

/-- **Every tree of a source can be written as source.** -/
theorem Scan.writable_of_tree? {limits : Limits} {source : Source} {tree : Expr}
    (h : (Scan.ofSource source).tree? limits = some tree) : tree.Writable := by
  obtain ⟨hmarks, hshaped⟩ := Scan.reading_of_tree? h
  have hspelled := Scan.wellSpelled_ofSource source
  refine ⟨Expr.operatorsKnown_of_shaped hshaped fun op hop => ?_,
    Scan.allLiterals_of_tree? trivial (fun _ => trivial) (fun t ht => (hspelled t ht).writable) h⟩
  rw [hmarks] at hop
  obtain ⟨t, ht, hmark⟩ := List.mem_map.mp hop
  obtain rfl := Token.eq_of_mark_operator hmark
  exact (hspelled t ht).asScanned

end LoxCalc
