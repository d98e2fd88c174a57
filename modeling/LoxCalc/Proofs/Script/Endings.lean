import LoxCalc.Proofs.Script.Blocking
import LoxCalc.Proofs.Script.Moves
import LoxCalc.Proofs.Script.SourceTrees

/-!
# How an execution ends

**The execution of a new script ends in one of three ways**, whatever its source is and
whatever the reporter has been given before.  The source is rejected, and that is what is
reported; or there is a tree and its evaluation fails, and that is reported; or there are
a value and its text, and nothing is reported.  A fault is not among the ways in which it
may end.

Lexical errors come before the syntax error, of which there is at most one.  A script has
a tree exactly if its first parse reports nothing (`exists_move_firstParse`), and such a
tree is faultless.

* `Ending.eq_of_of`: the three ways exclude each other.
* `Script.execute_ending`: the ways, and the trees of sources that are rejected.
-/

namespace LoxCalc

open Entry

/-- Whether diagnostics are those of a source that is refused or read: lexical errors, and
behind them at most one syntax error. -/
def AboutSource (added : List Diagnostic) : Prop :=
  ∃ (lexical : List LexicalError) (syntactic : Option SyntaxError),
    added = lexical.map .ofLexical ++ syntactic.toList.map .ofSyntax

inductive Ending where
  /-- There is no tree. -/
  | rejected
  /-- There is a tree and a runtime error. -/
  | failed
  /-- There is a tree and a value. -/
  | finished
  deriving DecidableEq, Repr

namespace Ending

/-- Whether an execution has ended in a certain way, when `added` has been reported and
results have `places` decimal places. -/
def Of (places : Int) (execution : Execution) (added : List Diagnostic) : Ending → Prop
  | .rejected =>
    execution.tree? = none ∧ execution.value = .nil ∧ execution.output? = none ∧
      added ≠ [] ∧ AboutSource added
  | .failed =>
    (∃ tree, execution.tree? = some tree) ∧ execution.value = .nil ∧ execution.output? = none ∧
      ∃ e, added = [.ofRuntime e]
  | .finished =>
    (∃ tree, execution.tree? = some tree) ∧ added = [] ∧
      ∃ output, execution.output? = some output ∧ execution.value.display places = .ok output

/-- **An execution ends in one way only.** -/
theorem eq_of_of {places : Int} {execution : Execution} {added : List Diagnostic}
    {ending ending' : Ending} (h : ending.Of places execution added)
    (h' : ending'.Of places execution added) : ending = ending' := by
  have hfirst : ∀ {other : Ending}, Of places execution added .rejected →
      other.Of places execution added → other = .rejected := by
    rintro other ⟨hnone, -⟩ hother
    cases other with
    | rejected => rfl
    | failed | finished =>
      obtain ⟨⟨tree, htree⟩, -⟩ := hother
      rw [hnone] at htree
      cases htree
  cases ending with
  | rejected => exact (hfirst h h').symm
  | failed =>
    cases ending' with
    | rejected => exact hfirst h' h
    | failed => rfl
    | finished =>
      obtain ⟨-, -, -, e, hadded⟩ := h
      exact absurd (h'.2.1.symm.trans hadded) nofun
  | finished =>
    cases ending' with
    | rejected => exact hfirst h' h
    | failed =>
      obtain ⟨-, -, -, e, hadded⟩ := h'
      exact absurd (h.2.1.symm.trans hadded) nofun
    | finished => rfl

end Ending

/-! ### The first parse -/

/-- Reports about a source raise the count, if there are any. -/
theorem AboutSource.errors_pos_iff {es : List Entry} (h : AboutSource (diagnostics es))
    (hmade : MadeUp es) :
    0 < errors es ↔ diagnostics es ≠ [] := by
  have hsource : ∀ d ∈ diagnostics es, d.isRuntime = false := by
    obtain ⟨lexical, syntactic, hadded⟩ := h
    intro d hd
    rw [hadded, List.mem_append, List.mem_map, List.mem_map] at hd
    rcases hd with ⟨e, -, rfl⟩ | ⟨e, -, rfl⟩ <;> rfl
  rw [errors_pos]
  constructor
  · rintro ⟨d, hd, -⟩
    rcases mem_counted.mp hd with hsaid | hbroken
    · exact List.ne_nil_of_mem hsaid
    · obtain ⟨-, d', hd', -⟩ := hmade d hbroken
      exact List.ne_nil_of_mem hd'
  · intro hne
    obtain ⟨d, hd⟩ := List.exists_mem_of_ne_nil _ hne
    exact ⟨d, mem_counted.mpr (Or.inl hd), hsource d hd⟩

namespace Script

theorem scan_ofSource {σ : Type} [Sink σ] (source : Source) (places : Places) (r : Reporter σ) :
    (ofSource source places).scan r =
      Move.turn ⟨.ofSource source,
        { ofSource source places with scanned := some (.ofSource source) },
        (Scan.ofSource source).entries⟩ r := by
  rw [Move.turn, ← Scan.reportTo_eq]
  rfl

/-- **The first parse of a script** gives a tree exactly if it reports nothing. -/
theorem exists_move_firstParse (limits : Limits) (source : Source) (places : Places) :
    ∃ m : Move (Option Expr),
      (∀ {σ : Type} [Sink σ] (r : Reporter σ),
        (ofSource source places).parse limits r = m.turn r) ∧
      m.script.places = places ∧
      ((m.answer = none ∧ diagnostics m.entries ≠ []) ∨
        ∃ tree, m.answer = some tree ∧ tree.Faultless ∧ diagnostics m.entries = []) ∧
      AboutSource (diagnostics m.entries) ∧ MadeUp m.entries := by
  obtain ⟨p, hp⟩ : ∃ p, p = Parser.ofStream (.ofScan (Scan.ofSource source)) := ⟨_, rfl⟩
  obtain ⟨es, hes⟩ : ∃ es, es = (Scan.ofSource source).entries ++ p.entries limits.parsing :=
    ⟨_, rfl⟩
  have hadded : diagnostics es = (Scan.ofSource source).errors.map .ofLexical ++
      (p.error? limits.parsing).toList.map .ofSyntax := by
    rw [hes, diagnostics_append, Scan.diagnostics_entries, Parser.diagnostics_entries]
  have hsource : AboutSource (diagnostics es) := ⟨_, _, hadded⟩
  have hmade : MadeUp es := by
    rw [hes]
    exact (MadeUp.scan _).append (.parse _ _)
  have hcount := hsource.errors_pos_iff hmade
  refine ⟨_, fun r => parse_eq rfl (scan_ofSource source places r) hp hes rfl, rfl, ?_, hsource,
    hmade⟩
  by_cases hclean : diagnostics es = []
  · refine Or.inr ?_
    have hnone : ¬ 0 < errors es := fun h => hcount.mp h hclean
    rw [hclean] at hadded
    have herror : p.error? limits.parsing = none := by
      cases herror : p.error? limits.parsing with
      | none => rfl
      | some e => simp [herror] at hadded
    obtain ⟨tree, htree⟩ := Parser.error?_eq_none_iff.mp herror
    refine ⟨tree, ?_, ?_, hclean⟩
    · rw [if_neg hnone, htree]
      rfl
    · rw [hp] at htree
      exact Parser.faultless_of_parse (Scan.literalTyped_ofSource source) htree
  · exact Or.inl ⟨if_pos (hcount.mpr hclean), hclean⟩

end Script

/-! ### Executions -/

theorem Expr.Faultless.interpret_fault {e : Expr} (h : e.Faultless) {σ : Type} [Sink σ]
    {a : Allowance Layer} {places : Int} {r : Reporter σ} {f : Fault}
    (hf : (e.interpret a places r).1 = .error f) : Value.placesFault? places = some f := by
  rw [interpret] at hf
  cases hvalue : e.evaluate a places with
  | ok v =>
    cases houtput : v.display places with
    | ok output => simp [hvalue, houtput, Except.map] at hf
    | error f' =>
      simp only [hvalue, houtput, Except.map, Except.error.injEq] at hf
      rw [← hf]
      exact ((h.native_of_evaluate hvalue).display_error houtput).2
  | error trouble =>
    cases trouble with
    | runtime e => simp [hvalue] at hf
    | fault f' =>
      simp only [hvalue, Except.error.injEq] at hf
      rw [← hf]
      exact h.evaluate_fault hvalue

theorem Move.exists_ending (limits : Limits) {m : Move (Option Expr)}
    (hparse : (m.answer = none ∧ diagnostics m.entries ≠ []) ∨
      ∃ tree, m.answer = some tree ∧ tree.Faultless ∧ diagnostics m.entries = [])
    (hsource : AboutSource (diagnostics m.entries)) :
    ∃ execution, (m.execution limits).answer = .ok execution ∧
      ∃ ending : Ending, ending.Of m.script.places execution
        (diagnostics (m.execution limits).entries) := by
  obtain ⟨tree?, script, es⟩ := m
  rcases hparse with ⟨rfl, hadded⟩ | ⟨tree, rfl, hfaultless, hadded⟩
  · exact ⟨.rejected, rfl, .rejected, rfl, rfl, rfl, hadded, hsource⟩
  · simp only [Move.execution]
    cases hvalue : tree.evaluate limits.evaluating defaultPlaces with
    | ok value =>
      cases houtput : value.display script.places with
      | ok output =>
        simp only [houtput]
        refine ⟨_, rfl, .finished, ⟨tree, rfl⟩, ?_, output, rfl, houtput⟩
        rw [diagnostics_append, hadded, diagnostics_note, List.nil_append]
      | error f =>
        obtain ⟨text, htext⟩ := (hfaultless.native_of_evaluate hvalue).display_places script.places
        rw [htext] at houtput
        cases houtput
    | error trouble =>
      cases trouble with
      | runtime e =>
        refine ⟨_, rfl, .failed, ⟨tree, rfl⟩, rfl, rfl, e, ?_⟩
        rw [diagnostics_append, hadded, diagnostics_report, List.nil_append]
      | fault f => exact absurd hvalue (hfaultless.evaluate_ne_fault defaultPlaces)

theorem Script.exists_execution (limits : Limits) (source : Source) (places : Places) :
    ∃ execution script es,
      (∀ {σ : Type} [Sink σ] (r : Reporter σ), (ofSource source places).execute limits r =
        ⟨.ok execution, script, r.enterAll es⟩) ∧
      MadeUp es ∧ ∃! ending : Ending, ending.Of places execution (diagnostics es) := by
  obtain ⟨m, hm, hplaces, hparse, hsource, hmade⟩ := exists_move_firstParse limits source places
  obtain ⟨execution, hanswer, ending, hending⟩ := Move.exists_ending limits hparse hsource
  rw [hplaces] at hending
  have hbreaks : m.Breaks (m.entries.countP isCount) := ⟨hmade, rfl⟩
  refine ⟨execution, (m.execution limits).script, (m.execution limits).entries, fun r => ?_,
    hbreaks.execution.madeUp, ending, hending, fun other hother => Ending.eq_of_of hother hending⟩
  rw [execute_eq (hm r), Move.turn, hanswer]

theorem Scan.faultless_of_tree? {limits : Limits} {source : Source} {tree : Expr}
    (h : (Scan.ofSource source).tree? limits = some tree) : tree.Faultless := by
  rw [Scan.tree?] at h
  cases hparse : ((Parser.ofStream (.ofScan (Scan.ofSource source))).parse limits.parsing).1 with
  | error e => simp [hparse, Except.toOption] at h
  | ok tree' =>
    obtain rfl : tree' = tree := by simpa [hparse, Except.toOption] using h
    exact Parser.faultless_of_parse (Scan.literalTyped_ofSource source) hparse

/-- **An execution of a new script ends in exactly one of three ways**, and never in a
fault; the parser has then not gone past the end of input.  A tree of the tokens of the
source, even if the source has lexical errors, can be evaluated, interpreted and printed
without any fault but that of a number of places with which nothing can be displayed. -/
theorem Script.execute_ending (limits : Limits) (source : Source) (places : Places) :
    (∃ execution script es,
      (∀ {σ : Type} [Sink σ] (r : Reporter σ), (ofSource source places).execute limits r =
        ⟨.ok execution, script, r.enterAll es⟩) ∧
      MadeUp es ∧ ∃! ending : Ending, ending.Of places execution (diagnostics es)) ∧
    ((Parser.ofStream (.ofScan (Scan.ofSource source))).parse limits.parsing).2.position ≤
      (Scan.ofSource source).body.length ∧
    ∀ tree, (Scan.ofSource source).tree? limits = some tree → ∀ f : Fault,
      (∀ a places, tree.evaluate a places = .error (.fault f) →
        Value.placesFault? places = some f) ∧
      (∀ {σ : Type} [Sink σ] (r : Reporter σ) a places,
        (tree.interpret a places r).1 = .error f → Value.placesFault? places = some f) ∧
      (∀ a, tree.prefixForm a ≠ .error (.raised f)) ∧
      ∀ a, tree.infixForm a ≠ .error (.raised f) := by
  have hposition := Parser.position_parse_le limits.parsing (.ofScan (Scan.ofSource source))
  rw [Scan.body_ofScan_ofSource] at hposition
  refine ⟨exists_execution limits source places, hposition, fun tree htree f => ?_⟩
  have hfaultless := Scan.faultless_of_tree? htree
  refine ⟨fun a places hf => hfaultless.evaluate_fault hf,
    fun r a places hf => hfaultless.interpret_fault hf, fun a hform => ?_, fun a hform => ?_⟩
  · have hends := hfaultless.ends_prefixForm a
    rwa [hform] at hends
  · have hends := hfaultless.ends_infixForm a
    rwa [hform] at hends

end LoxCalc
