import LoxCalc.Proofs.Script.Requests

/-!
# Requests that are made again

A script keeps the outcome of its scan and of its parse.  **So what has been asked of a script
decides what it is**: `Script.after` says how far requests have brought it, and one more request
brings it to the script after one more request, whichever it is (`Session.step_after`).

Everything that a script answers comes from its `Findings`, its tokens, its tree and what the
tree gives when it is evaluated and when it is printed.  The first request decides about the
tree, for an error of the scan keeps it away only if the scan is done on the way to it; from then
on nothing changes any more.  The errors of the scan are reported by the first request and the
error of the parse by the first one that is no scan.  The runtime error of an execution, and the
message that a tree is too deep to print, belong to no cache and come with every request.

* `Script.parse_after`: the parse of a script of which something has been asked.
* `Session.step_after`: one request, with its answer and its reports.
* `Session.exists_findings`: **all answers of a run come from the same findings**.
-/

namespace LoxCalc

open Entry
open Session (Step Answer)

/-! ### What a tree gives -/

namespace Expr

variable (limits : Limits) (e : Expr)

def execution (places : Places) : Except Fault Execution :=
  match e.evaluate limits.evaluating defaultPlaces with
  | .ok value => (value.display places).map (.finished e value)
  | .error (.runtime _) => .ok (.failed e)
  | .error (.fault f) => .error f

def printing : Except Fault (Option String) :=
  match e.prefixForm limits.prefixPrinting with
  | .ok text => .ok (some text)
  | .error .exhausted => .ok none
  | .error (.raised f) => .error f

/-- What every evaluation of a tree gives to report: its runtime error, if it has one. -/
def evaluationReport (a : Allowance Layer) (places : Int) (e : Expr) : List Diagnostic :=
  match e.evaluate a places with
  | .error (.runtime error) => [.ofRuntime error]
  | _ => []

def printingReport (line : Int) : List Diagnostic :=
  match e.prefixForm limits.prefixPrinting with
  | .error .exhausted => [.source line "" SyntaxError.Cause.tooDeep.message]
  | _ => []

variable {e}

theorem Faultless.exists_execution (h : e.Faultless) (limits : Limits) (places : Places) :
    ∃ execution, e.execution limits places = .ok execution := by
  rw [Expr.execution]
  cases hvalue : e.evaluate limits.evaluating defaultPlaces with
  | ok value =>
    cases houtput : value.display places with
    | ok output => exact ⟨_, congrArg (Except.map _) houtput⟩
    | error f =>
      obtain ⟨text, htext⟩ := (h.native_of_evaluate hvalue).display_places places
      rw [htext] at houtput
      cases houtput
  | error trouble =>
    cases trouble with
    | runtime error => exact ⟨_, rfl⟩
    | fault f => exact absurd hvalue (h.evaluate_ne_fault defaultPlaces)

theorem Faultless.exists_printing (h : e.Faultless) (limits : Limits) :
    ∃ text?, e.printing limits = .ok text? := by
  rw [Expr.printing]
  cases hform : e.prefixForm limits.prefixPrinting with
  | ok text => exact ⟨_, rfl⟩
  | error halt =>
    cases halt with
    | exhausted => exact ⟨_, rfl⟩
    | raised f =>
      have hends := h.ends_prefixForm limits.prefixPrinting
      rw [hform] at hends
      exact hends.elim

end Expr

def Scan.firstLine (scan : Scan) : Int :=
  ((TokenStream.ofScan scan).tokenAt 0).line

namespace Move

variable {limits : Limits} {m : Move (Option Expr)}

theorem execution_answer : (m.execution limits).answer =
    m.answer.elim (.ok .rejected) (·.execution limits m.script.places) := by
  rw [Move.execution]
  cases m.answer with
  | none => rfl
  | some tree =>
    dsimp only [Option.elim, Expr.execution]
    cases tree.evaluate limits.evaluating defaultPlaces with
    | ok value =>
      dsimp only
      cases value.display m.script.places <;> rfl
    | error trouble => cases trouble <;> rfl

theorem diagnostics_execution : diagnostics (m.execution limits).entries =
    diagnostics m.entries ++
      m.answer.elim [] (Expr.evaluationReport limits.evaluating defaultPlaces) := by
  rw [Move.execution]
  cases m.answer with
  | none => exact (List.append_nil _).symm
  | some tree =>
    dsimp only [Option.elim, Expr.evaluationReport]
    cases tree.evaluate limits.evaluating defaultPlaces with
    | ok value =>
      dsimp only
      cases value.display m.script.places with
      | ok output => rw [diagnostics_append, diagnostics_note]
      | error f => exact (List.append_nil _).symm
    | error trouble =>
      cases trouble with
      | runtime error => rw [diagnostics_append, diagnostics_report]
      | fault f => exact (List.append_nil _).symm

theorem countP_execution (m : Move (Option Expr)) :
    (m.execution limits).entries.countP isCount = m.entries.countP isCount := by
  rw [Move.execution]
  split
  · rfl
  · split
    · split
      · rw [List.countP_append]
        rfl
      · rfl
    · rw [List.countP_append]
      rfl
    · rfl

def printing (limits : Limits) (scan : Scan) (m : Move (Option Expr)) :
    Move (Except Fault (Option String)) :=
  ⟨m.answer.elim (.ok none) (·.printing limits), m.script,
    m.entries ++ (m.answer.elim [] (·.printingReport limits scan.firstLine)).map .report⟩

theorem countP_printing (m : Move (Option Expr)) (scan : Scan) :
    (m.printing limits scan).entries.countP isCount = m.entries.countP isCount := by
  rw [printing, List.countP_append, List.countP_map]
  exact Nat.add_eq_left.mpr (List.countP_eq_zero.mpr fun d _ h => Bool.false_ne_true h)

end Move

theorem Script.printTree_eq {σ : Type} [Sink σ] {limits : Limits} {s : Script}
    {m : Move (Option Expr)} {r : Reporter σ} (hparse : s.parse limits r = m.turn r) {scan : Scan}
    (hscanned : m.script.scanned = some scan) :
    s.printTree limits r = (m.printing limits scan).turn r := by
  obtain ⟨tree?, script, es⟩ := m
  rw [Script.printTree, hparse]
  cases tree? with
  | none => simp only [Move.turn, Move.printing, Option.elim, List.map_nil, List.append_nil]
  | some tree =>
    simp only [Move.turn, Move.printing, Option.elim, Expr.printing, Expr.printingReport]
    cases hform : tree.prefixForm limits.prefixPrinting with
    | ok text => simp only [List.map_nil, List.append_nil]
    | error halt =>
      cases halt with
      | raised f => simp only [List.map_nil, List.append_nil]
      | exhausted =>
        dsimp only at hscanned
        simp only [Script.scan, hscanned, Reporter.enterAll_append]
        rfl

/-! ### How far requests bring a script -/

def OnlyScans (asked : List Step) : Prop :=
  ∀ q ∈ asked, q = .scan

instance (asked : List Step) : Decidable (OnlyScans asked) :=
  inferInstanceAs (Decidable (∀ q ∈ asked, q = .scan))

theorem onlyScans_nil : OnlyScans [] := List.forall_mem_nil _

theorem onlyScans_append_scan {asked : List Step} :
    OnlyScans (asked ++ [.scan]) ↔ OnlyScans asked := by
  simp [OnlyScans, or_imp]

theorem not_onlyScans_append {asked : List Step} {q : Step} (h : q ≠ .scan) :
    ¬ OnlyScans (asked ++ [q]) :=
  fun hall => h (hall q (List.mem_append_right _ (List.mem_singleton_self q)))

/-- **The first request decides about the tree** of a source: the errors of a scan that is made
first do not keep it away. -/
def Scan.treeFrom (limits : Limits) (scan : Scan) (first? : Option Step) : Option Expr :=
  if scan.errors = [] ∨ first? = some .scan then scan.tree? limits else none

/-- Only the errors of the scan that are counted keep the tree away; an error of the parse leaves
none anyway. -/
theorem Scan.treeFrom_eq {limits : Limits} {scan : Scan} {first? : Option Step} {n : Nat}
    (hn : n = 0 ↔ scan.errors = [] ∨ first? = some .scan) :
    scan.treeFrom limits first? =
      if 0 < n + Entry.errors (scan.parser.entries limits.parsing) then none
      else (scan.parser.parse limits.parsing).1.toOption := by
  by_cases hzero : n = 0
  · rw [Scan.treeFrom, if_pos (hn.mp hzero), hzero, Nat.zero_add]
    show (scan.parser.parse limits.parsing).1.toOption = _
    cases hresult : (scan.parser.parse limits.parsing).1 with
    | ok tree =>
      have hnone : ¬ 0 < Entry.errors (scan.parser.entries limits.parsing) := by
        simp [Parser.errors_entries_pos_iff, Parser.error?, hresult]
      exact (if_neg hnone).symm
    | error e =>
      have hsome : 0 < Entry.errors (scan.parser.entries limits.parsing) := by
        simp [Parser.errors_entries_pos_iff, Parser.error?, hresult]
      exact (if_pos hsome).symm
  · rw [Scan.treeFrom, if_neg fun h => hzero (hn.mpr h), if_pos (by omega)]

namespace Script

variable (limits : Limits) (source : Source) (places : Places)

/-- The script of a source of which something has been asked. -/
def after (asked : List Step) : Script where
  source := source
  places := places
  scanned := if asked = [] then none else some (.ofSource source)
  parsed := if OnlyScans asked then none
    else some ((Scan.ofSource source).treeFrom limits asked.head?)

theorem after_append_scan (asked : List Step) : after limits source places (asked ++ [.scan]) =
    { after limits source places asked with scanned := some (.ofSource source) } := by
  simp only [after, onlyScans_append_scan, List.append_eq_nil_iff, List.cons_ne_nil, and_false,
    if_false]
  cases asked with
  | nil => rfl
  | cons first asked => rfl

theorem after_append {asked : List Step} {q : Step} (hq : q ≠ .scan) :
    after limits source places (asked ++ [q]) =
      ⟨source, places, some (.ofSource source),
        some ((Scan.ofSource source).treeFrom limits asked.head?)⟩ := by
  simp only [after, if_neg (not_onlyScans_append hq), List.append_eq_nil_iff, List.cons_ne_nil,
    and_false, if_false]
  cases asked with
  | nil =>
    have hfirst : (Scan.ofSource source).treeFrom limits (some q) =
        (Scan.ofSource source).treeFrom limits none := by simp [Scan.treeFrom, hq]
    exact congrArg (fun tree? => Script.mk source places (some (.ofSource source)) (some tree?))
      hfirst
  | cons first asked => rfl

def scanEntries (asked : List Step) : List Entry :=
  if asked = [] then (Scan.ofSource source).entries else []

/-- The entries of the parse, which the first request makes that is no scan. -/
def parseEntries (asked : List Step) : List Entry :=
  if OnlyScans asked then (Scan.ofSource source).parser.entries limits.parsing else []

/-- What a parse does if `asked` has been asked for before. -/
def parseMove (asked : List Step) : Move (Option Expr) where
  answer := (Scan.ofSource source).treeFrom limits asked.head?
  script := after limits source places (asked ++ [.parse])
  entries := scanEntries source asked ++ parseEntries limits source asked

variable {σ : Type} [Sink σ] (asked : List Step) (r : Reporter σ)

theorem scan_after : (after limits source places asked).scan r =
    Move.turn ⟨.ofSource source, after limits source places (asked ++ [.scan]),
      scanEntries source asked⟩ r := by
  rw [after_append_scan, Move.turn, Script.scan]
  by_cases hnone : asked = []
  · subst hnone
    simp only [scanEntries, if_pos, ← Scan.reportTo_eq]
    rfl
  · simp only [scanEntries, after, if_neg hnone]
    rfl

/-- **The parse of a script of which something has been asked.** -/
theorem parse_after : (after limits source places asked).parse limits r =
    (parseMove limits source places asked).turn r := by
  rw [parseMove, after_append limits source places (q := .parse) nofun]
  by_cases hscans : OnlyScans asked
  · have hparsed : (after limits source places asked).parsed = none := if_pos hscans
    have hentries : parseEntries limits source asked =
        (Scan.ofSource source).parser.entries limits.parsing := if_pos hscans
    have hzero : errors (scanEntries source asked) = 0 ↔
        (Scan.ofSource source).errors = [] ∨ asked.head? = some .scan := by
      cases asked with
      | nil =>
        have hcount : errors (scanEntries source []) = (Scan.ofSource source).errors.length := by
          rw [scanEntries, if_pos rfl, Scan.errors_entries]
        rw [hcount, List.length_eq_zero_iff]
        simp
      | cons first rest =>
        rw [hscans first List.mem_cons_self]
        exact iff_of_true rfl (Or.inr rfl)
    have htree := @Scan.treeFrom_eq limits _ _ _ hzero
    rw [← errors_append, ← hentries] at htree
    have hparse := parse_eq hparsed (scan_after limits source places asked r)
      (p := (Scan.ofSource source).parser) rfl (by rw [hentries]) htree
    rw [hparse, after_append_scan]
    rfl
  · have hsome : asked ≠ [] := fun hnil => hscans (hnil ▸ onlyScans_nil)
    rw [Script.parse]
    simp only [after, scanEntries, parseEntries, if_neg hscans, if_neg hsome]
    rfl

end Script

/-! ### Requests -/

structure Findings where
  tokens : List Token
  tree? : Option Expr
  execution : Execution
  text? : Option String

namespace Findings

def answer (found : Findings) : Step → Answer
  | .scan => .tokens found.tokens
  | .parse => .tree found.tree?
  | .execute => .execution found.execution
  | .printTree => .text found.text?
  | _ => .nothing

/-- Whether findings are those of a source, if `first?` is asked first. -/
structure Of (limits : Limits) (source : Source) (places : Places) (first? : Option Step)
    (found : Findings) : Prop where
  tokens : found.tokens = (Scan.ofSource source).tokens
  tree : found.tree? = (Scan.ofSource source).treeFrom limits first?
  execution : .ok found.execution = found.tree?.elim (.ok .rejected) (·.execution limits places)
  text : .ok found.text? = found.tree?.elim (.ok none) (·.printing limits)

/-- **A source has findings**, since its tree is faultless. -/
theorem exists_of (limits : Limits) (source : Source) (places : Places) (first? : Option Step) :
    ∃ found : Findings, found.Of limits source places first? := by
  cases htree : (Scan.ofSource source).treeFrom limits first? with
  | none => exact ⟨⟨_, none, .rejected, none⟩, rfl, htree.symm, rfl, rfl⟩
  | some tree =>
    have hfaultless : tree.Faultless := by
      rw [Scan.treeFrom] at htree
      split at htree
      · exact Scan.faultless_of_tree? htree
      · cases htree
    obtain ⟨execution, hexecution⟩ := hfaultless.exists_execution limits places
    obtain ⟨text?, htext⟩ := hfaultless.exists_printing limits
    exact ⟨⟨_, some tree, execution, text?⟩, rfl, htree.symm, hexecution.symm, htext.symm⟩

end Findings

def Session.everyTime (limits : Limits) (source : Source) (tree? : Option Expr) :
    Step → List Diagnostic
  | .execute => tree?.elim [] (Expr.evaluationReport limits.evaluating defaultPlaces)
  | .printTree => tree?.elim [] (·.printingReport limits (Scan.ofSource source).firstLine)
  | _ => []

/-- What a request reports if `asked` has been asked for before and the tree is `tree?`. -/
def Session.reports (limits : Limits) (source : Source) (tree? : Option Expr)
    (asked : List Step) (q : Step) : List Diagnostic :=
  (if asked = [] then (Scan.ofSource source).errors.map .ofLexical else []) ++
    (if q ≠ .scan ∧ OnlyScans asked then
      ((Scan.ofSource source).parser.error? limits.parsing).toList.map .ofSyntax else []) ++
    everyTime limits source tree? q

namespace Script

variable (limits : Limits) (source : Source) (asked : List Step)

theorem diagnostics_scanEntries : diagnostics (scanEntries source asked) =
    if asked = [] then (Scan.ofSource source).errors.map .ofLexical else [] := by
  rw [scanEntries]
  split
  · exact Scan.diagnostics_entries _
  · rfl

theorem diagnostics_parseEntries : diagnostics (parseEntries limits source asked) =
    if OnlyScans asked then
      ((Scan.ofSource source).parser.error? limits.parsing).toList.map .ofSyntax else [] := by
  rw [parseEntries]
  split
  · exact Parser.diagnostics_entries _ _
  · rfl

theorem madeUp_parseMove (places : Places) :
    MadeUp (parseMove limits source places asked).entries := by
  refine MadeUp.append ?_ ?_
  · rw [scanEntries]
    split
    · exact .scan _
    · exact .nil
  · rw [parseEntries]
    split
    · exact .parse _ _
    · exact .nil

theorem countP_scanEntries : (scanEntries source asked).countP isCount = 0 := by
  rw [scanEntries]
  split
  · exact countP_scan _
  · rfl

theorem countP_parseEntries (places : Places) : (parseEntries limits source asked).countP isCount =
    ((after limits source places asked).breaksOff limits).toNat := by
  have houtcome : (after limits source places asked).outcome = .ofSource source := by
    rw [outcome, after]
    split <;> rfl
  rw [parseEntries, breaksOff, houtcome]
  by_cases hscans : OnlyScans asked
  · rw [if_pos hscans, Parser.countP_entries, after, if_pos hscans]
    rfl
  · rw [if_neg hscans, after, if_neg hscans]
    rfl

end Script

namespace Session

open Script

variable {limits : Limits} {source : Source} {places : Places} {σ : Type} [Sink σ]

/-- **One more request**: its answer comes from the findings of the script, and it reports what
no request before it has reported. -/
theorem step_after {asked : List Step} {q : Step} (hq : q.isRequest = true) {found : Findings}
    (hfound : found.Of limits source places (asked ++ [q]).head?) (r : Reporter σ) :
    ∃ es, step limits ⟨after limits source places asked, r⟩ q =
        (.ok (found.answer q), ⟨after limits source places (asked ++ [q]), r.enterAll es⟩) ∧
      diagnostics es = reports limits source found.tree? asked q ∧
      es.countP isCount = (q.breaksOff limits (after limits source places asked)).toNat := by
  obtain ⟨m, hm⟩ : ∃ m, m = parseMove limits source places asked := ⟨_, rfl⟩
  have hparse : (after limits source places asked).parse limits r = m.turn r := by
    rw [hm, parse_after]
  have hentries : diagnostics m.entries = diagnostics (scanEntries source asked) ++
      diagnostics (parseEntries limits source asked) := by
    rw [hm, parseMove, diagnostics_append]
  have hcount : m.entries.countP isCount =
      ((after limits source places asked).breaksOff limits).toNat := by
    rw [hm, parseMove, List.countP_append, countP_scanEntries, Nat.zero_add, countP_parseEntries]
  have hparseNoScan : Step.parse ≠ .scan := by simp
  -- a request that is no scan finds the tree and leaves the script as a parse does
  have hneeds : q ≠ .scan → found.tree? = m.answer ∧
      m.script = after limits source places (asked ++ [q]) := by
    intro hscan
    have hscript : m.script = after limits source places (asked ++ [q]) := by
      rw [hm, parseMove, after_append limits source places hscan,
        after_append limits source places hparseNoScan]
    refine ⟨?_, hscript⟩
    rw [hfound.tree, hm]
    cases asked with
    | nil => simp [parseMove, Scan.treeFrom, hscan]
    | cons first rest => rfl
  cases q with
  | scan =>
    refine ⟨scanEntries source asked, ?_, ?_, countP_scanEntries source asked⟩
    · rw [Session.step, scan_after, Findings.answer, hfound.tokens]
      rfl
    · rw [diagnostics_scanEntries, reports]
      simp [everyTime]
  | parse =>
    obtain ⟨htree, hscript⟩ := hneeds hparseNoScan
    refine ⟨m.entries, ?_, ?_, hcount⟩
    · rw [Session.step, hparse, Findings.answer, htree, ← hscript]
      rfl
    · rw [hentries, diagnostics_scanEntries, diagnostics_parseEntries, reports]
      simp [everyTime]
  | execute =>
    obtain ⟨htree, hscript⟩ := hneeds (by simp)
    have hanswer : (m.execution limits).answer = .ok found.execution := by
      rw [Move.execution_answer, hfound.execution, htree, hm]
      rfl
    refine ⟨(m.execution limits).entries, ?_, ?_, (Move.countP_execution m).trans hcount⟩
    · rw [Session.step, execute_eq hparse, Move.turn, hanswer, Move.execution_script, hscript]
      rfl
    · rw [Move.diagnostics_execution, hentries, diagnostics_scanEntries,
        diagnostics_parseEntries, reports, everyTime, htree]
      simp
  | printTree =>
    obtain ⟨htree, hscript⟩ := hneeds (by simp)
    have hscanned : m.script.scanned = some (.ofSource source) := by
      rw [hm, parseMove, after_append limits source places hparseNoScan]
    have hanswer : (m.printing limits (.ofSource source)).answer = .ok found.text? := by
      rw [hfound.text, htree]
      rfl
    refine ⟨(m.printing limits (.ofSource source)).entries, ?_, ?_,
      (Move.countP_printing m _).trans hcount⟩
    · rw [Session.step, printTree_eq hparse hscanned, Move.turn, hanswer]
      show (_, Session.mk m.script _) = _
      rw [hscript]
      rfl
    · rw [Move.printing, diagnostics_append, hentries, diagnostics_scanEntries,
        diagnostics_parseEntries, reports, everyTime, htree]
      have hmap := diagnostics_map_report id
        (m.answer.elim [] (·.printingReport limits (Scan.ofSource source).firstLine))
      simp only [id_eq] at hmap
      simp [hmap]
  | report _ | start _ _ | runSource _ => cases hq

def before? (s : Session σ) (turns : List (Except Fault Answer × Session σ)) (i : Nat) :
    Option (Session σ) :=
  (s :: turns.map Prod.snd)[i]?

theorem exists_before (limits : Limits) (source : Source) (places : Places) {qs : List Step} :
    ∀ (asked : List Step) (r : Reporter σ) {i : Nat} {q : Step},
      (∀ q ∈ qs, q.isRequest = true) → qs[i]? = some q →
      ∃ r', before? ⟨after limits source places asked, r⟩
          (run limits ⟨after limits source places asked, r⟩ qs) i =
            some ⟨after limits source places (asked ++ qs.take i), r'⟩ ∧
        (run limits ⟨after limits source places asked, r⟩ qs)[i]? =
          some (step limits ⟨after limits source places (asked ++ qs.take i), r'⟩ q) := by
  induction qs with
  | nil =>
    intro asked r i q _ hq
    cases hq
  | cons first qs ih =>
    intro asked r i q hreq hq
    obtain ⟨hfirst, hrest⟩ := List.forall_mem_cons.mp hreq
    cases i with
    | zero =>
      obtain rfl : first = q := Option.some.inj hq
      refine ⟨r, ?_, ?_⟩
      · rw [List.take_zero, List.append_nil]
        rfl
      · rw [List.take_zero, List.append_nil]
        rfl
    | succ i =>
      obtain ⟨found, hfound⟩ := Findings.exists_of limits source places (asked ++ [first]).head?
      obtain ⟨es, hstep, -, -⟩ := step_after hfirst hfound r
      obtain ⟨r', hbefore, hturn⟩ := ih (asked ++ [first]) (r.enterAll es) hrest hq
      rw [List.append_assoc, List.singleton_append] at hbefore hturn
      refine ⟨r', ?_, ?_⟩
      · rw [run, hstep]
        exact hbefore
      · rw [run, hstep]
        exact hturn

/-- Whether all answers to requests come from the same findings, and whether each request reports
exactly what is left for it to report, and breaks off a report only if it is the first to parse. -/
def AnsweredFrom (limits : Limits) (source : Source) (places : Places) (qs : List Step)
    (found : Findings) : Prop :=
  ∀ {σ : Type} [Sink σ] (r : Reporter σ) (i : Nat) (q : Step), qs[i]? = some q →
    ∃ before turn es,
      before? ⟨ofSource source places, r⟩ (run limits ⟨ofSource source places, r⟩ qs) i =
        some before ∧
      (run limits ⟨ofSource source places, r⟩ qs)[i]? = some turn ∧
      turn.1 = .ok (found.answer q) ∧
      turn.2.reporter = before.reporter.enterAll es ∧
      diagnostics es = reports limits source found.tree? (qs.take i) q ∧
      es.countP isCount = (q.breaksOff limits before.script).toNat

/-- **All answers of a run come from the same findings.**  Requests of a new script are answered
without a fault, the same ones in the same way.  The errors of the scan are reported by the first
request alone and the error of the parse by the first request that is no scan alone; a runtime
error and the message about a tree too deep to print are reported every time. -/
theorem exists_findings {qs : List Step} (hreq : ∀ q ∈ qs, q.isRequest = true) (limits : Limits)
    (source : Source) (places : Places) :
    ∃ found : Findings, found.Of limits source places qs.head? ∧
      AnsweredFrom limits source places qs found := by
  obtain ⟨found, hfound⟩ := Findings.exists_of limits source places qs.head?
  refine ⟨found, hfound, fun r i q hq => ?_⟩
  obtain ⟨r', hbefore, hturn⟩ := exists_before limits source places [] r hreq hq
  rw [List.nil_append] at hbefore hturn
  -- the request is the first one, or the first one is among those before it
  have hhead : qs.head? = (qs.take i ++ [q]).head? := by
    have htake : qs.take (i + 1) = qs.take i ++ [q] := by
      rw [List.take_add_one, hq]
      rfl
    rw [← htake, List.head?_take, if_neg (Nat.succ_ne_zero i)]
  rw [hhead] at hfound
  obtain ⟨es, hstep, hes⟩ :=
    step_after (hreq q (List.mem_of_getElem? hq)) hfound r'
  exact ⟨_, _, es, hbefore, hturn, by rw [hstep], by rw [hstep], hes⟩

/-- Requests to a source with a lexical error, a scan first and some of them made twice. -/
theorem exists_findings_strayAfterNil :
    (∀ q ∈ [Step.scan, .execute, .printTree, .execute, .parse], q.isRequest = true) ∧
      ∃ found : Findings, found.Of .standard strayAfterNil 2 (some .scan) ∧
        AnsweredFrom .standard strayAfterNil 2
          [.scan, .execute, .printTree, .execute, .parse] found := by
  have hreq : ∀ q ∈ [Step.scan, .execute, .printTree, .execute, .parse], q.isRequest = true := by
    decide
  exact ⟨hreq, exists_findings hreq .standard strayAfterNil 2⟩

end Session

end LoxCalc
