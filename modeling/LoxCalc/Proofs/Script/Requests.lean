import LoxCalc.Proofs.Script.Placement

/-!
# What a new script answers

A host shows one text of a script, its value or its printed tree.  **There are three ways in
which this may go**, and the source alone decides among them: it is `Refused`, it `Fails` when
it is evaluated, or it `Shows` a text.  The reporter tells them apart by what it is given, an
error of the source, a runtime error, or nothing at all (`Script.exists_request`).

How the source is spelt, as text or as bytes, makes no difference to what a script answers and
reports (`Script.Alike`).
-/

namespace LoxCalc

open Entry

/-! ### The ways of a source -/

namespace Scan

variable {limits : Limits} {places : Places} {printTree : Bool} {s : Scan} {text : String}

/-- Whether a source is refused: it has a lexical error, it has no tree, or its tree is too
deep to print. -/
def Refused (limits : Limits) (printTree : Bool) (s : Scan) : Prop :=
  s.errors ≠ [] ∨ s.tree? limits = none ∨
    (printTree = true ∧ ∃ tree, s.tree? limits = some tree ∧
      tree.prefixForm limits.prefixPrinting = .error .exhausted)

def Fails (limits : Limits) (printTree : Bool) (s : Scan) : Prop :=
  printTree = false ∧ s.errors = [] ∧ ∃ tree e, s.tree? limits = some tree ∧
    tree.evaluate limits.evaluating defaultPlaces = .error (.runtime e)

/-- Whether a text is shown of a source, the prefix form of its tree or its value. -/
def Shows (limits : Limits) (places : Places) (printTree : Bool) (s : Scan) (text : String) : Prop :=
  s.errors = [] ∧ ∃ tree, s.tree? limits = some tree ∧
    if printTree then tree.prefixForm limits.prefixPrinting = .ok text
    else ∃ v, tree.evaluate limits.evaluating defaultPlaces = .ok v ∧
      v.display places = .ok text

theorem Fails.not_refused (h : s.Fails limits printTree) : ¬ s.Refused limits printTree := by
  obtain ⟨hprint, herrors, tree, e, htree, -⟩ := h
  rintro (herr | hnone | ⟨hprint', -⟩)
  · exact herr herrors
  · rw [htree] at hnone
    cases hnone
  · rw [hprint] at hprint'
    cases hprint'

theorem Shows.not_refused (h : s.Shows limits places printTree text) :
    ¬ s.Refused limits printTree := by
  obtain ⟨herrors, tree, htree, hshown⟩ := h
  rintro (herr | hnone | ⟨rfl, other, hother, hexhausted⟩)
  · exact herr herrors
  · rw [htree] at hnone
    cases hnone
  · obtain rfl : tree = other := Option.some.inj (htree.symm.trans hother)
    rw [if_pos rfl, hexhausted] at hshown
    cases hshown

theorem Shows.not_fails (h : s.Shows limits places printTree text) :
    ¬ s.Fails limits printTree := by
  obtain ⟨-, tree, htree, hshown⟩ := h
  rintro ⟨rfl, -, other, e, hother, hfails⟩
  obtain rfl : tree = other := Option.some.inj (htree.symm.trans hother)
  obtain ⟨v, hv, -⟩ := hshown
  rw [hfails] at hv
  cases hv

theorem Shows.unique {text' : String} (h : s.Shows limits places printTree text)
    (h' : s.Shows limits places printTree text') : text = text' := by
  obtain ⟨-, tree, htree, hshown⟩ := h
  obtain ⟨-, other, hother, hshown'⟩ := h'
  obtain rfl : tree = other := Option.some.inj (htree.symm.trans hother)
  cases printTree with
  | true => exact Except.ok.inj (hshown.symm.trans hshown')
  | false =>
    obtain ⟨v, hv, hdisplay⟩ := hshown
    obtain ⟨w, hw, hdisplay'⟩ := hshown'
    obtain rfl : v = w := Except.ok.inj (hv.symm.trans hw)
    exact Except.ok.inj (hdisplay.symm.trans hdisplay')

end Scan

namespace Script

/-! ### Requests -/

section Requests

variable {σ : Type} [Sink σ]

def request (limits : Limits) (printTree : Bool) (s : Script) (r : Reporter σ) :
    Turn σ (Except Fault (Option String)) :=
  if printTree then s.printTree limits r
  else
    let turn := s.execute limits r
    ⟨turn.answer.map Execution.output?, turn.script, turn.reporter⟩

end Requests

theorem exists_move_request (limits : Limits) (printTree : Bool) (s : Script) :
    ∃ m : Move (Except Fault (Option String)), (∀ {σ : Type} [Sink σ] (r : Reporter σ),
      s.request limits printTree r = m.turn r) ∧ MadeUp m.entries := by
  cases printTree with
  | true =>
    obtain ⟨m, hm, hbreaks⟩ := s.exists_move_printTree limits
    exact ⟨m, hm, hbreaks.madeUp⟩
  | false =>
    obtain ⟨m, hm, hbreaks⟩ := s.exists_move_execute limits
    refine ⟨⟨m.answer.map Execution.output?, m.script, m.entries⟩, fun r => ?_, hbreaks.madeUp⟩
    show Turn.mk ((s.execute limits r).answer.map Execution.output?) _ _ = _
    rw [hm]
    rfl

/-- **The tree of a new script** is that of its tokens, if there are no lexical errors. -/
theorem answer_parse_ofSource {σ : Type} [Sink σ] (limits : Limits) (source : Source)
    (places : Places) (r : Reporter σ) :
    ((ofSource source places).parse limits r).answer =
      if (Scan.ofSource source).errors = [] then (Scan.ofSource source).tree? limits
      else none := by
  by_cases herrors : (Scan.ofSource source).errors = []
  · obtain ⟨p, hp⟩ : ∃ p, p = Parser.ofStream (.ofScan (Scan.ofSource source)) := ⟨_, rfl⟩
    obtain ⟨r', hr'⟩ : ∃ r', r' = (Scan.ofSource source).reportTo r := ⟨_, rfl⟩
    have hbefore : r'.errorCount = r.errorCount := by
      rw [hr', Scan.errorCount_reportTo, herrors]
      rfl
    have hcount := p.parseReporting_errorCount limits.parsing r'
    have htree : (p.parseReporting limits.parsing r').1 = (Scan.ofSource source).tree? limits := by
      rw [Parser.parseReporting_tree, hp]
      rfl
    rw [hbefore, htree] at hcount
    rw [if_pos herrors, Script.parse]
    simp only [ofSource, Script.scan, ← hp, ← hr', hcount, htree]
    cases (Scan.ofSource source).tree? limits <;> rfl
  · rw [if_neg herrors]
    exact (parse_ofSource herrors places r).answer

/-- How a request of a new script may end: with which text, and with which diagnostics. -/
inductive Answered (limits : Limits) (places : Places) (printTree : Bool) (scan : Scan) :
    Option String → List Diagnostic → Prop
  | refused {ds : List Diagnostic} (h : scan.Refused limits printTree)
      (hds : ds.any (!·.isRuntime) = true) : Answered limits places printTree scan none ds
  | failed (h : scan.Fails limits printTree) (e : RuntimeError) :
      Answered limits places printTree scan none [.ofRuntime e]
  | shown {text : String} (h : scan.Shows limits places printTree text) :
      Answered limits places printTree scan (some text) []

namespace Answered

variable {limits : Limits} {places : Places} {printTree : Bool} {scan : Scan}
  {text? : Option String} {ds : List Diagnostic}

theorem refused_iff (h : Answered limits places printTree scan text? ds) :
    scan.Refused limits printTree ↔ ∃ d ∈ ds, d.isRuntime = false := by
  cases h with
  | refused hrefused hds => exact iff_of_true hrefused (by simpa using hds)
  | failed hfails e =>
    refine iff_of_false hfails.not_refused ?_
    rintro ⟨d, hd, hsource⟩
    rw [List.mem_singleton.mp hd] at hsource
    cases hsource
  | shown hshows =>
    refine iff_of_false hshows.not_refused ?_
    rintro ⟨d, hd, -⟩
    cases hd

theorem fails_iff (h : Answered limits places printTree scan text? ds) :
    scan.Fails limits printTree ↔ ds ≠ [] ∧ ∀ d ∈ ds, d.isRuntime = true := by
  cases h with
  | refused hrefused hds =>
    refine iff_of_false (fun hfails => hfails.not_refused hrefused) ?_
    rintro ⟨-, hall⟩
    obtain ⟨d, hd, hsource⟩ : ∃ d ∈ ds, d.isRuntime = false := by simpa using hds
    rw [hall d hd] at hsource
    cases hsource
  | failed hfails e =>
    refine iff_of_true hfails ⟨List.cons_ne_nil _ _, fun d hd => ?_⟩
    rw [List.mem_singleton.mp hd]
    rfl
  | shown hshows =>
    refine iff_of_false hshows.not_fails ?_
    rintro ⟨hne, -⟩
    exact hne rfl

theorem shows_iff (h : Answered limits places printTree scan text? ds) (text : String) :
    scan.Shows limits places printTree text ↔ text? = some text := by
  cases h with
  | refused hrefused _ =>
    exact iff_of_false (fun hshows => hshows.not_refused hrefused) (Option.some_ne_none _).symm
  | failed hfails _ =>
    exact iff_of_false (fun hshows => hshows.not_fails hfails) (Option.some_ne_none _).symm
  | shown hshows =>
    refine ⟨fun hother => congrArg some (hshows.unique hother), fun heq => ?_⟩
    rw [← Option.some.inj heq]
    exact hshows

theorem eq_nil_iff (h : Answered limits places printTree scan text? ds) :
    ds = [] ↔ ∃ text, text? = some text := by
  cases h with
  | refused _ hds =>
    refine iff_of_false (fun hnil => ?_) fun ⟨text, htext⟩ => ?_
    · rw [hnil] at hds
      cases hds
    · cases htext
  | failed _ e => exact iff_of_false (List.cons_ne_nil _ _) fun ⟨text, htext⟩ => nomatch htext
  | @shown text _ => exact iff_of_true rfl ⟨text, rfl⟩

end Answered

theorem any_of_aboutSource {ds : List Diagnostic} (h : AboutSource ds) (hne : ds ≠ []) :
    ds.any (!·.isRuntime) = true := by
  obtain ⟨lexical, syntactic, rfl⟩ := h
  cases lexical with
  | cons e es => rfl
  | nil =>
    cases syntactic with
    | some e => rfl
    | none => exact absurd rfl hne

theorem exists_move_firstTree (limits : Limits) (source : Source) (places : Places) :
    ∃ m : Move (Option Expr),
      (∀ {σ : Type} [Sink σ] (r : Reporter σ),
        (ofSource source places).parse limits r = m.turn r) ∧
      m.script.places = places ∧ (∃ scan, m.script.scanned = some scan) ∧ MadeUp m.entries ∧
      ((m.answer = none ∧ (diagnostics m.entries).any (!·.isRuntime) = true ∧
          ((Scan.ofSource source).errors ≠ [] ∨ (Scan.ofSource source).tree? limits = none)) ∨
        ∃ tree, m.answer = some tree ∧ tree.Faultless ∧ diagnostics m.entries = [] ∧
          (Scan.ofSource source).errors = [] ∧
          (Scan.ofSource source).tree? limits = some tree) := by
  obtain ⟨m, hm, hplaces, hanswer, habout, hmade⟩ :=
    exists_move_firstParse limits source places
  have hparse := hm (Reporter.fresh (Collected.mk #[]))
  have hfirst := answer_parse_ofSource limits source places (Reporter.fresh (Collected.mk #[]))
  obtain ⟨scan, hscanned⟩ := (coherent_ofSource source places).exists_scanned_parse limits
    (Reporter.fresh (Collected.mk #[]))
  rw [hparse] at hfirst hscanned
  dsimp only [Move.turn] at hfirst hscanned
  refine ⟨m, hm, hplaces, ⟨scan, hscanned⟩, hmade, ?_⟩
  rcases hanswer with ⟨hnone, hne⟩ | ⟨tree, hsome, hfaultless, hclean⟩
  · refine Or.inl ⟨hnone, any_of_aboutSource habout hne, ?_⟩
    by_cases herrors : (Scan.ofSource source).errors = []
    · rw [if_pos herrors, hnone] at hfirst
      exact Or.inr hfirst.symm
    · exact Or.inl herrors
  · by_cases herrors : (Scan.ofSource source).errors = []
    · rw [if_pos herrors, hsome] at hfirst
      exact Or.inr ⟨tree, hsome, hfaultless, hclean, herrors, hfirst.symm⟩
    · rw [if_neg herrors, hsome] at hfirst
      cases hfirst

theorem exists_printTree (limits : Limits) (source : Source) (places : Places) :
    ∃ text? es, (∀ {σ : Type} [Sink σ] (r : Reporter σ), ∃ script,
        (ofSource source places).printTree limits r = ⟨.ok text?, script, r.enterAll es⟩) ∧
      Answered limits places true (Scan.ofSource source) text? (diagnostics es) ∧ MadeUp es := by
  obtain ⟨m, hm, -, ⟨scan, hscanned⟩, hmade, hanswer⟩ := exists_move_firstTree limits source places
  rcases hanswer with ⟨hnone, hany, hrefused⟩ | ⟨tree, hsome, hfaultless, hclean, herrors, htree⟩
  · refine ⟨none, m.entries, fun r => ⟨m.script, ?_⟩, .refused ?_ hany, hmade⟩
    · rw [Script.printTree, hm]
      simp only [Move.turn, hnone]
    · exact hrefused.imp_right Or.inl
  · cases hform : tree.prefixForm limits.prefixPrinting with
    | ok text =>
      refine ⟨some text, m.entries, fun r => ⟨m.script, ?_⟩, ?_, hmade⟩
      · rw [Script.printTree, hm]
        simp only [Move.turn, hsome, hform]
      · rw [hclean]
        exact .shown ⟨herrors, tree, htree, hform⟩
    | error halt =>
      cases halt with
      | raised f =>
        have hends := hfaultless.ends_prefixForm limits.prefixPrinting
        rw [hform] at hends
        exact hends.elim
      | exhausted =>
        refine ⟨none, m.entries ++ [.report (.source ((TokenStream.ofScan scan).tokenAt 0).line ""
          SyntaxError.Cause.tooDeep.message)], fun r => ⟨m.script, ?_⟩, .refused ?_ ?_,
          hmade.append (.report _)⟩
        · rw [Script.printTree, hm]
          simp only [Move.turn, hsome, hform, Script.scan, hscanned, Reporter.enterAll_append]
          rfl
        · exact Or.inr (Or.inr ⟨rfl, tree, htree, hform⟩)
        · rw [diagnostics_append, hclean]
          rfl

theorem exists_execute (limits : Limits) (source : Source) (places : Places) :
    ∃ execution es, (∀ {σ : Type} [Sink σ] (r : Reporter σ), ∃ script,
        (ofSource source places).execute limits r = ⟨.ok execution, script, r.enterAll es⟩) ∧
      Answered limits places false (Scan.ofSource source) execution.output? (diagnostics es) ∧
      MadeUp es := by
  obtain ⟨m, hm, hplaces, -, hmade, hanswer⟩ := exists_move_firstTree limits source places
  obtain ⟨tree?, script, es⟩ := m
  dsimp only at hplaces hmade hanswer
  rcases hanswer with ⟨rfl, hany, hrefused⟩ | ⟨tree, rfl, hfaultless, hclean, herrors, htree⟩
  · refine ⟨.rejected, es, fun r => ⟨script, execute_eq (hm r)⟩, .refused ?_ hany, hmade⟩
    exact hrefused.imp_right Or.inl
  · have hexecute : ∀ {σ : Type} [Sink σ] (r : Reporter σ), (ofSource source places).execute limits r =
        ((Move.mk (some tree) script es).execution limits).turn r := fun r => execute_eq (hm r)
    cases hvalue : tree.evaluate limits.evaluating defaultPlaces with
    | ok value =>
      cases houtput : value.display places with
      | ok output =>
        refine ⟨.finished tree value output, es ++ [.note (.evaluated tree.kindName output)],
          fun r => ⟨script, ?_⟩, ?_, hmade.append (.note _)⟩
        · rw [hexecute, Move.execution]
          simp only [hvalue, hplaces, houtput, Move.turn]
        · rw [diagnostics_append, hclean]
          exact .shown ⟨herrors, tree, htree, value, hvalue, houtput⟩
      | error f =>
        obtain ⟨text, htext⟩ := (hfaultless.native_of_evaluate hvalue).display_places places
        rw [htext] at houtput
        cases houtput
    | error trouble =>
      cases trouble with
      | runtime e =>
        refine ⟨.failed tree, es ++ [.report (.ofRuntime e)], fun r => ⟨script, ?_⟩, ?_,
          hmade.append (.report _)⟩
        · rw [hexecute, Move.execution]
          simp only [hvalue, Move.turn]
        · rw [diagnostics_append, hclean]
          exact .failed ⟨rfl, herrors, tree, e, htree, hvalue⟩ e
      | fault f => exact absurd hvalue (hfaultless.evaluate_ne_fault defaultPlaces)

/-- **A request of a new script ends in one of three ways**, never in a fault, and it does so
with every reporter. -/
theorem exists_request (limits : Limits) (printTree : Bool) (source : Source) (places : Places) :
    ∃ text? es, (∀ {σ : Type} [Sink σ] (r : Reporter σ), ∃ script,
        (ofSource source places).request limits printTree r =
          ⟨.ok text?, script, r.enterAll es⟩) ∧
      Answered limits places printTree (Scan.ofSource source) text? (diagnostics es) ∧
      MadeUp es := by
  cases printTree with
  | true => exact exists_printTree limits source places
  | false =>
    obtain ⟨execution, es, hexecute, hanswered, hmade⟩ := exists_execute limits source places
    refine ⟨execution.output?, es, fun r => ?_, hanswered, hmade⟩
    obtain ⟨script, hscript⟩ := hexecute r
    refine ⟨script, ?_⟩
    show Turn.mk (((ofSource source places).execute limits r).answer.map Execution.output?) _ _ = _
    rw [hscript]
    rfl

/-! ### Sources spelt otherwise -/

/-- Whether two scripts differ at most in how their source is spelt. -/
structure Alike (s s' : Script) : Prop where
  characters : s.source.characters = s'.source.characters
  places : s.places = s'.places
  scanned : s.scanned = s'.scanned
  parsed : s.parsed = s'.parsed

theorem alike_ofSource {source source' : Source} (h : source.characters = source'.characters)
    (places : Places) : Alike (ofSource source places) (ofSource source' places) :=
  ⟨h, rfl, rfl, rfl⟩

structure Turn.Alike {σ α : Type} (t t' : Turn σ α) : Prop where
  answer : t.answer = t'.answer
  script : Script.Alike t.script t'.script
  reporter : t.reporter = t'.reporter

namespace Alike

variable {σ : Type} [Sink σ] {s s' : Script} (limits : Limits)

theorem scan (h : Alike s s') (r : Reporter σ) : (s.scan r).Alike (s'.scan r) := by
  have hsource : Scan.ofSource s.source = Scan.ofSource s'.source := by
    rw [Scan.ofSource, Scan.ofSource, h.characters]
  rw [Script.scan, Script.scan, h.scanned, hsource]
  cases s'.scanned with
  | some scan => exact ⟨rfl, h, rfl⟩
  | none => exact ⟨rfl, ⟨h.characters, h.places, rfl, h.parsed⟩, rfl⟩

theorem parse (h : Alike s s') (r : Reporter σ) :
    (s.parse limits r).Alike (s'.parse limits r) := by
  obtain ⟨hanswer, hscript, hreporter⟩ := h.scan r
  rw [Script.parse, Script.parse, h.parsed]
  cases s'.parsed with
  | some tree => exact ⟨rfl, h, rfl⟩
  | none =>
    simp only [hanswer, hreporter]
    exact ⟨rfl, ⟨hscript.characters, hscript.places, hscript.scanned, rfl⟩, rfl⟩

theorem execute (h : Alike s s') (r : Reporter σ) :
    (s.execute limits r).Alike (s'.execute limits r) := by
  obtain ⟨hanswer, hscript, hreporter⟩ := h.parse limits r
  rw [Script.execute, Script.execute, hanswer, hreporter, hscript.places]
  cases (s'.parse limits r).answer with
  | none => exact ⟨rfl, hscript, rfl⟩
  | some tree =>
    dsimp only
    cases tree.evaluate limits.evaluating defaultPlaces with
    | ok value =>
      dsimp only
      cases value.display (s'.parse limits r).script.places with
      | ok output => exact ⟨rfl, hscript, rfl⟩
      | error f => exact ⟨rfl, hscript, rfl⟩
    | error trouble =>
      cases trouble with
      | runtime e => exact ⟨rfl, hscript, rfl⟩
      | fault f => exact ⟨rfl, hscript, rfl⟩

theorem printTree (h : Alike s s') (r : Reporter σ) :
    (s.printTree limits r).Alike (s'.printTree limits r) := by
  obtain ⟨hanswer, hscript, hreporter⟩ := h.parse limits r
  rw [Script.printTree, Script.printTree, hanswer, hreporter]
  cases (s'.parse limits r).answer with
  | none => exact ⟨rfl, hscript, rfl⟩
  | some tree =>
    dsimp only
    cases tree.prefixForm limits.prefixPrinting with
    | ok text => exact ⟨rfl, hscript, rfl⟩
    | error halt =>
      cases halt with
      | raised f => exact ⟨rfl, hscript, rfl⟩
      | exhausted =>
        obtain ⟨hscan, hscript', hreporter'⟩ := hscript.scan (s'.parse limits r).reporter
        dsimp only
        rw [hscan, hreporter']
        exact ⟨rfl, hscript', rfl⟩

/-- **A request does not depend on how the source is spelt.** -/
theorem request (h : Alike s s') (printTree : Bool) (r : Reporter σ) :
    (s.request limits printTree r).Alike (s'.request limits printTree r) := by
  cases printTree with
  | true => exact h.printTree limits r
  | false =>
    obtain ⟨hanswer, hscript, hreporter⟩ := h.execute limits r
    exact ⟨congrArg (Except.map Execution.output?) hanswer, hscript, hreporter⟩

end Alike

end Script

end LoxCalc
