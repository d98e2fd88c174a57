import LoxCalc.Proofs.Expr.Precision
import LoxCalc.Proofs.Script.Repetition

/-!
# Two ways to run a tree

A tree is interpreted with one number of decimal places, for its value and for its messages.  The
execution of a script evaluates with the default number of places and displays the value with the
number of the script.  **The two ways differ in one message at most**: they show the same text and
leave the same count and flags, since the number of places has no part in how an evaluation ends;
and what an execution reports is what an interpretation with the default number of places reports.

* `Expr.interpret_eq`: an interpretation with its answer and its reports.
* `Expr.interpretation_eq`: the text of an interpretation is that of an execution.
* `Script.execute_after`: the execution of a script with a tree.
* `Script.execute_interpret`: both parts, the number of places and the two ways.
-/

namespace LoxCalc

open Entry
open Session (Step)

namespace Reporter

variable {σ : Type} [Sink σ] {r : Reporter σ}

structure SameFlags (r r' : Reporter σ) : Prop where
  errorCount : r.errorCount = r'.errorCount
  hadError : r.hadError = r'.hadError
  hadRuntimeError : r.hadRuntimeError = r'.hadRuntimeError

theorem sameFlags_enterAll {es es' : List Entry}
    (h : (counted es).map (·.isRuntime) = (counted es').map (·.isRuntime)) :
    SameFlags (r.enterAll es) (r.enterAll es') := by
  have hcount : ∀ fs, errors fs = ((counted fs).map (·.isRuntime)).countP (!·) := by
    intro fs
    rw [errors, List.countP_map]
    rfl
  have herror : ∀ fs, (counted fs).any (!·.isRuntime) =
      ((counted fs).map (·.isRuntime)).any (!·) := by
    intro fs
    rw [List.any_map]
    rfl
  have hruntime : ∀ fs, (counted fs).any (·.isRuntime) =
      ((counted fs).map (·.isRuntime)).any id := by
    intro fs
    rw [List.any_map]
    rfl
  refine ⟨?_, ?_, ?_⟩
  · rw [errorCount_enterAll, errorCount_enterAll, hcount, hcount, h]
  · rw [hadError_enterAll, hadError_enterAll, herror, herror, h]
  · rw [hadRuntimeError_enterAll, hadRuntimeError_enterAll, hruntime, hruntime, h]

theorem reportAll_eq (ds : List Diagnostic) : ∀ r : Reporter σ,
    r.reportAll ds = r.enterAll (ds.map .report) := by
  induction ds with
  | nil => exact fun r => rfl
  | cons d ds ih => exact fun r => ih (r.report d)

end Reporter

theorem Entry.counted_reports (ds : List Diagnostic) : counted (ds.map .report) = ds := by
  have hmap := counted_map_report id ds
  rwa [List.map_id] at hmap

namespace Expr

def interpretation (a : Allowance Layer) (places : Int) (e : Expr) : Except Fault (Option String) :=
  match e.evaluate a places with
  | .ok v => (v.display places).map some
  | .error (.runtime _) => .ok none
  | .error (.fault f) => .error f

variable {limits : Limits} {e : Expr}

theorem interpret_eq {σ : Type} [Sink σ] (a : Allowance Layer) (places : Int) (e : Expr)
    (r : Reporter σ) : e.interpret a places r =
      (e.interpretation a places, r.reportAll (e.evaluationReport a places)) := by
  rw [interpret, interpretation, evaluationReport]
  cases e.evaluate a places with
  | ok v => rfl
  | error trouble => cases trouble <;> rfl

/-- **The text of an interpretation is that of an execution** with the same number of places. -/
theorem interpretation_eq {execution : Execution} {places : Places}
    (h : e.execution limits places = .ok execution) :
    e.interpretation limits.evaluating places = .ok execution.output? := by
  rw [Expr.execution] at h
  rw [interpretation]
  rcases e.evaluate_places limits.evaluating with ⟨outcome, hsame, -⟩ | ⟨p, op, v, w, -, hsame⟩
  · rw [hsame defaultPlaces] at h
    rw [hsame places]
    cases outcome with
    | ok value =>
      dsimp only at h ⊢
      cases houtput : value.display places with
      | error f => rw [houtput] at h; cases h
      | ok output =>
        rw [houtput] at h
        obtain rfl := Except.ok.inj h
        rfl
    | error trouble =>
      cases trouble with
      | fault f => cases h
      | runtime error =>
        obtain rfl := Except.ok.inj h
        rfl
  · obtain ⟨left, right, hdefault⟩ := (hsame defaultPlaces).exists_shown
    obtain ⟨left', right', hplaces⟩ := (hsame places).exists_shown
    rw [hdefault] at h
    rw [hplaces]
    obtain rfl := Except.ok.inj h
    rfl

theorem evaluationReport_isRuntime (a : Allowance Layer) (e : Expr) (m n : Places) :
    (e.evaluationReport a m).map (·.isRuntime) = (e.evaluationReport a n).map (·.isRuntime) := by
  rw [evaluationReport, evaluationReport]
  rcases e.evaluate_places a with ⟨outcome, hsame, -⟩ | ⟨p, op, v, w, -, hsame⟩
  · rw [hsame m, hsame n]
  · obtain ⟨left, right, hm⟩ := (hsame m).exists_shown
    obtain ⟨left', right', hn⟩ := (hsame n).exists_shown
    rw [hm, hn]
    rfl

end Expr

namespace Script

variable {limits : Limits} {source : Source} {tree : Expr}

/-- **An execution of a script with a tree**, whatever has been asked of the script before,
reports nothing but the runtime error of the tree. -/
theorem execute_after (herrors : (Scan.ofSource source).errors = [])
    (htree : (Scan.ofSource source).tree? limits = some tree) (places : Places) (asked : List Step) :
    ∃ execution script es, tree.execution limits places = .ok execution ∧
      diagnostics es = tree.evaluationReport limits.evaluating defaultPlaces ∧
      counted es = diagnostics es ∧
      ∀ {σ : Type} [Sink σ] (r : Reporter σ), (after limits source places asked).execute limits r =
        ⟨.ok execution, script, r.enterAll es⟩ := by
  obtain ⟨m, hm⟩ : ∃ m, m = parseMove limits source places asked := ⟨_, rfl⟩
  have hanswer : m.answer = some tree := by
    rw [hm, parseMove, Scan.treeFrom, if_pos (Or.inl herrors), htree]
  have herror : (Scan.ofSource source).parser.error? limits.parsing = none := by
    have hparse : ((Scan.ofSource source).parser.parse limits.parsing).1.toOption = some tree :=
      htree
    rw [Parser.error?]
    cases hresult : ((Scan.ofSource source).parser.parse limits.parsing).1 with
    | ok tree => rfl
    | error e => rw [hresult] at hparse; cases hparse
  have hclean : diagnostics m.entries = [] := by
    rw [hm, parseMove, diagnostics_append, diagnostics_scanEntries, diagnostics_parseEntries,
      herrors, herror]
    simp
  have hplaces : m.script.places = places := by rw [hm]; rfl
  obtain ⟨execution, hexecution⟩ :=
    (Scan.faultless_of_tree? htree).exists_execution limits places
  have hmove : (m.execution limits).answer = .ok execution := by
    rw [Move.execution_answer, hanswer, hplaces]
    exact hexecution
  have hmade : MadeUp m.entries := by
    rw [hm]
    exact madeUp_parseMove limits source asked places
  have hcounted : (m.execution limits).entries.countP isCount = 0 :=
    (Move.countP_execution m).trans (hmade.countP_eq_zero hclean)
  refine ⟨execution, (m.execution limits).script, (m.execution limits).entries, hexecution, ?_,
    counted_eq hcounted, fun r => ?_⟩
  · rw [Move.diagnostics_execution, hclean, hanswer]
    rfl
  · have hparse := parse_after limits source places asked r
    rw [← hm] at hparse
    rw [execute_eq hparse, Move.turn, hmove]

/-- Whether the execution of a script that has been asked for `asked` before is an interpretation
of `tree` with the number of places of the script, as to its text, its count and its flags, and
one with the default number of places as to its message. -/
def RunsAs (limits : Limits) (source : Source) (places : Places) (asked : List Step) (tree : Expr) :
    Prop :=
  ∃ execution script es,
    (∀ {σ : Type} [Sink σ] (r : Reporter σ),
      (after limits source places asked).execute limits r =
          ⟨.ok execution, script, r.enterAll es⟩ ∧
        (tree.interpret limits.evaluating places r).1 = .ok execution.output? ∧
        Reporter.SameFlags (r.enterAll es) (tree.interpret limits.evaluating places r).2 ∧
        (tree.interpret limits.evaluating defaultPlaces r).2 = r.reportAll (diagnostics es))

/-- **Two ways to run a tree, and one meaning.**  The outcome of an evaluation is the same with
all numbers of places, unless it is that of a `+` whose left operand is neither a string nor a
number; then it is the message at the same operator with all numbers of places and shows the
same operands with each, except that there is no message with too many places for a right operand
that is a number.  And an execution of a source without errors gives the text, the count and
the flags of an interpretation of its tree with the same number of places, and it reports what an
interpretation with the default number of places reports. -/
theorem execute_interpret (limits : Limits) :
    (∀ (a : Allowance Expr.Layer) (e : Expr),
      (∃ outcome : Expr.Outcome, (∀ places : Nat, e.evaluate a places = outcome) ∧
        ∀ t, outcome = .error t → Expr.ShowsNoOperands t) ∨
      ∃ p op v w, Expr.MismatchAt a e p op v w ∧
        ∀ places : Nat, Expr.MismatchEnd places op v w (e.evaluate a places)) ∧
    ∀ (source : Source) (tree : Expr), (Scan.ofSource source).errors = [] →
      (Scan.ofSource source).tree? limits = some tree →
        ∀ (places : Places) (asked : List Step), RunsAs limits source places asked tree := by
  refine ⟨Expr.evaluate_places, fun source tree herrors htree places asked => ?_⟩
  obtain ⟨execution, script, es, hexecution, hreport, hcounted, hexecute⟩ :=
    execute_after herrors htree places asked
  refine ⟨execution, script, es, fun r => ⟨hexecute r, ?_, ?_, ?_⟩⟩
  · rw [Expr.interpret_eq, Expr.interpretation_eq hexecution]
  · rw [Expr.interpret_eq, Reporter.reportAll_eq]
    refine Reporter.sameFlags_enterAll ?_
    rw [hcounted, hreport, counted_reports]
    exact Expr.evaluationReport_isRuntime limits.evaluating tree defaultPlaces places
  · rw [Expr.interpret_eq, hreport]

/-- Whether two evaluations end with the same value, or with the same kind of error at the same
token. -/
def SameKind : Expr.Outcome → Expr.Outcome → Prop
  | .ok v, .ok w => v = w
  | .error (.runtime e), .error (.runtime f) => e.token = f.token
  | .error (.fault f), .error (.fault g) => f = g
  | _, _ => False

/-- A tree whose runtime error shows a number that is the same with all numbers of places. -/
def nilPlusInfinity : Expr :=
  .binary (.literal .nil) (.operator .plus 1) (.literal (.number (.infinite false)))

/-- **The kind of error does depend on the number of places**, where there are too many of them. -/
theorem evaluate_nilPlusInfinity :
    nilPlusInfinity.evaluate Limits.standard.evaluating defaultPlaces =
        .error (.runtime ⟨.operator .plus 1, .mismatchedOperands "nil" "inf"⟩) ∧
      nilPlusInfinity.evaluate Limits.standard.evaluating placesLimit =
        .error (.fault .precisionTooBig) ∧
      ¬ ∀ (e : Expr) (m n : Nat), SameKind (e.evaluate Limits.standard.evaluating m)
        (e.evaluate Limits.standard.evaluating n) := by
  have hdefault : nilPlusInfinity.evaluate Limits.standard.evaluating defaultPlaces =
      .error (.runtime ⟨.operator .plus 1, .mismatchedOperands "nil" "inf"⟩) := rfl
  have hlimit : nilPlusInfinity.evaluate Limits.standard.evaluating placesLimit =
      .error (.fault .precisionTooBig) := rfl
  refine ⟨hdefault, hlimit, fun hall => ?_⟩
  have hsame := hall nilPlusInfinity defaultPlaces placesLimit
  rw [hdefault, hlimit] at hsame
  exact hsame

def nilPlusOne : Source := .text "nil+1"

def readOne : Value := .number (Segment.numberValue ['1'] [])

theorem ofSource_nilPlusOne : Scan.ofSource nilPlusOne =
    ⟨[.operator .nilWord 1, .operator .plus 1, ⟨.number, "1", readOne, 1⟩], [], 1⟩ := by
  have hword : segments ('n' :: (['i', 'l'] ++ ['+', '1'])) =
      .word ['n', 'i', 'l'] :: segments ['+', '1'] :=
    segments_word rfl rfl (List.all_eq_true.mp rfl) rfl
  have hnumber : segments ['1'] = [.number ['1'] []] := Segment.segments_single rfl
  show Scan.ofSegments 1 (segments ('n' :: (['i', 'l'] ++ ['+', '1']))) = _
  rw [hword, segments_punctuation rfl, hnumber]
  rfl

theorem execute_interpret_nilPlusOne :
    (Scan.ofSource nilPlusOne).errors = [] ∧
      (Scan.ofSource nilPlusOne).tree? .standard =
        some (.binary (.literal .nil) (.operator .plus 1) (.literal readOne)) ∧
      RunsAs .standard nilPlusOne 2 [.scan]
        (.binary (.literal .nil) (.operator .plus 1) (.literal readOne)) := by
  have herrors : (Scan.ofSource nilPlusOne).errors = [] := by rw [ofSource_nilPlusOne]
  have htree : (Scan.ofSource nilPlusOne).tree? .standard =
      some (.binary (.literal .nil) (.operator .plus 1) (.literal readOne)) := by
    rw [ofSource_nilPlusOne, Scan.tree?_eq_read (by decide)]
    rfl
  exact ⟨herrors, htree, (execute_interpret .standard).2 _ _ herrors htree 2 [.scan]⟩

end Script

end LoxCalc
