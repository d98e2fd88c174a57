import LoxCalc.Proofs.Parser.Reading
import LoxCalc.Proofs.Token.Cutting
import LoxCalc.Session

/-!
# Lexical errors and the requests after them

A script whose source has lexical errors is meant to have no tree.  What keeps the
tree away is the count of errors around the parse, and it does so only if the scan
is done inside the parse.  **A scan made first puts the errors into the count
before it is looked at**, and then only a syntax error is left to keep the tree
away.

* `parse_ofSource`: the first parse of a script with lexical errors gives no tree.
* `parse_of_settled`: after a scan the parse gives the tree of the tokens.
* `allBlocked_run_iff`: the sequences of requests to which all answers are empty.
* `scan_then_execute`: an execution after a scan that has a value for `nil @`.
-/

namespace LoxCalc

variable {σ : Type} [Sink σ]

/-! ### Reports about a source -/

namespace Reporter

/-- What becomes of a reporter by traces and by reports about a source, said or broken off; no
runtime error is among them. -/
inductive SourceOnly (r : Reporter σ) : Reporter σ → Prop where
  | refl : SourceOnly r r
  | note {s : Reporter σ} (h : SourceOnly r s) (t : Trace) : SourceOnly r (s.note t)
  | report {s : Reporter σ} (h : SourceOnly r s) (line : Int) (place message : String) :
      SourceOnly r (s.report (.source line place message))
  | count {s : Reporter σ} (h : SourceOnly r s) (line : Int) (place message : String) :
      SourceOnly r (s.count (.source line place message))

namespace SourceOnly

theorem trans {r s t : Reporter σ} (h : SourceOnly r s) (h' : SourceOnly s t) :
    SourceOnly r t := by
  induction h' with
  | refl => exact h
  | note _ work ih => exact ih.note work
  | report _ line place message ih => exact ih.report line place message
  | count _ line place message ih => exact ih.count line place message

theorem enterAll {es : List Entry} (r : Reporter σ)
    (h : ∀ d ∈ Entry.counted es, d.isRuntime = false) : SourceOnly r (r.enterAll es) := by
  refine enterAll_induction (P := fun s es => (∀ d ∈ Entry.counted es, d.isRuntime = false) →
    SourceOnly r s) (fun _ => .refl) (fun s es e ih h => ?_) es h
  rw [Entry.counted_append, List.forall_mem_append] at h
  have hbefore := ih h.1
  cases e with
  | note t => exact hbefore.note t
  | report d =>
    cases d with
    | source line place message => exact hbefore.report line place message
    | runtime line message => cases h.2 _ (List.mem_singleton_self _)
  | count d =>
    cases d with
    | source line place message => exact hbefore.count line place message
    | runtime line message => cases h.2 _ (List.mem_singleton_self _)

end SourceOnly

end Reporter

open Reporter (SourceOnly)

theorem Scan.sourceOnly_reportTo (s : Scan) (r : Reporter σ) : SourceOnly r (s.reportTo r) := by
  rw [Scan.reportTo_eq]
  refine .enterAll r fun d hd => ?_
  rw [Scan.counted_entries] at hd
  obtain ⟨e, -, rfl⟩ := List.mem_map.mp hd
  rfl

theorem Scan.errorCount_reportTo (s : Scan) (r : Reporter σ) :
    (s.reportTo r).errorCount = r.errorCount + s.errors.length := by
  rw [Scan.reportTo_eq, Reporter.errorCount_enterAll, Scan.errors_entries]

namespace Parser

variable (a : Allowance Opening) (p : Parser) (r : Reporter σ)

theorem parseReporting_tree : (p.parseReporting a r).1 = (p.parse a).1.toOption := by
  rw [parseReporting_eq]

theorem parseReporting_sourceOnly : SourceOnly r (p.parseReporting a r).2.2 := by
  rw [parseReporting_eq]
  exact .enterAll r fun d hd => isRuntime_of_mem_counted hd

theorem parseReporting_errorCount : r.errorCount < (p.parseReporting a r).2.2.errorCount ↔
    (p.parseReporting a r).1 = none := by
  rw [parseReporting_eq]
  dsimp only
  rw [Reporter.errorCount_enterAll, Nat.lt_add_right_iff_pos, errors_entries_pos_iff, error?]
  cases (p.parse a).1 with
  | ok tree => simp [Except.toOption]
  | error e => simp [Except.toOption]

theorem parseReporting_errorCount_le :
    r.errorCount ≤ (p.parseReporting a r).2.2.errorCount := by
  rw [parseReporting_eq]
  dsimp only
  rw [Reporter.errorCount_enterAll]
  exact Nat.le_add_right _ _

end Parser

/-! ### The tree of a script -/

def Scan.parser (scan : Scan) : Parser :=
  .ofStream (.ofScan scan)

/-- The tree of the tokens of a scan, whatever its errors are. -/
def Scan.tree? (limits : Limits) (s : Scan) : Option Expr :=
  ((Parser.ofStream (.ofScan s)).parse limits.parsing).1.toOption

theorem Scan.tree?_eq_read {s : Scan} (h : ∀ t ∈ s.body, t.kind ≠ .eof) (limits : Limits) :
    s.tree? limits = (Parser.read limits.parsing .initial s.body).result.toOption := by
  have hrest : (Parser.ofStream (.ofScan s)).rest = s.body := TokenStream.body_ofScan h
  rw [Scan.tree?, Parser.parse_eq, hrest]
  cases (Parser.read limits.parsing .initial s.body).result <;> rfl

namespace Script

/-- A script that has been scanned, and that has the tree `tree?` from now on. -/
def Settled (limits : Limits) (tree? : Option Expr) (s : Script) : Prop :=
  ∃ scan, s.scanned = some scan ∧
    (s.parsed = some tree? ∨ (s.parsed = none ∧ scan.tree? limits = tree?))

/-- What a parse does: it gives a tree, which the script keeps, and reports nothing
but errors of the source. -/
structure Parses (limits : Limits) (tree? : Option Expr) (s : Script) (r : Reporter σ) : Prop where
  answer : (s.parse limits r).answer = tree?
  settled : Settled limits tree? (s.parse limits r).script
  sourceOnly : SourceOnly r (s.parse limits r).reporter

variable {limits : Limits} {tree? : Option Expr} {s : Script}

theorem scan_of_settled (h : Settled limits tree? s) (r : Reporter σ) :
    (s.scan r).script = s ∧ (s.scan r).reporter = r := by
  obtain ⟨scan, hscan, -⟩ := h
  rw [Script.scan, hscan]
  exact ⟨rfl, rfl⟩

/-- **After a scan only a syntax error keeps the tree away**: the errors of the scan
were counted before. -/
theorem parse_of_settled (h : Settled limits tree? s) (r : Reporter σ) :
    Parses limits tree? s r := by
  obtain ⟨scan, hscan, hparsed | ⟨hparsed, htree⟩⟩ := h
  · have hparse : s.parse limits r = ⟨tree?, s, r⟩ := by rw [Script.parse, hparsed]
    refine ⟨?_, ?_, ?_⟩ <;> rw [hparse]
    · exact ⟨scan, hscan, Or.inl hparsed⟩
    · exact .refl
  · obtain ⟨parser, hparser⟩ : ∃ p, p = Parser.ofStream (.ofScan scan) := ⟨_, rfl⟩
    have hresult : (parser.parseReporting limits.parsing r).1 = tree? := by
      rw [Parser.parseReporting_tree, hparser]
      exact htree
    have hcount := parser.parseReporting_errorCount limits.parsing r
    have hparse : s.parse limits r =
        ⟨tree?, { s with parsed := some tree? },
          (parser.parseReporting limits.parsing r).2.2⟩ := by
      rw [Script.parse, hparsed]
      simp only [Script.scan, hscan, ← hparser, hresult, hcount]
      cases tree? <;> rfl
    refine ⟨?_, ?_, ?_⟩ <;> rw [hparse]
    · exact ⟨scan, hscan, Or.inl rfl⟩
    · exact parser.parseReporting_sourceOnly limits.parsing r

/-- **A parse that does the scan itself gives no tree** if the scan has errors. -/
theorem parse_ofSource {source : Source} (herr : (Scan.ofSource source).errors ≠ [])
    (places : Places) (r : Reporter σ) : Parses limits none (.ofSource source places) r := by
  obtain ⟨scan, hscan⟩ : ∃ s, s = Scan.ofSource source := ⟨_, rfl⟩
  obtain ⟨parser, hparser⟩ : ∃ p, p = Parser.ofStream (.ofScan scan) := ⟨_, rfl⟩
  have hraised : r.errorCount <
      (parser.parseReporting limits.parsing (scan.reportTo r)).2.2.errorCount := by
    have hafter := parser.parseReporting_errorCount_le limits.parsing (scan.reportTo r)
    rw [scan.errorCount_reportTo] at hafter
    have hpos := List.length_pos_iff.mpr herr
    rw [← hscan] at hpos
    omega
  have hparse : (ofSource source places).parse limits r =
      ⟨none, { ofSource source places with scanned := some scan, parsed := some none },
        (parser.parseReporting limits.parsing (scan.reportTo r)).2.2⟩ := by
    rw [Script.parse]
    simp only [ofSource, Script.scan, ← hscan, ← hparser, if_pos hraised]
  refine ⟨?_, ?_, ?_⟩ <;> rw [hparse]
  · exact ⟨scan, rfl, Or.inl rfl⟩
  · exact (scan.sourceOnly_reportTo r).trans
      (parser.parseReporting_sourceOnly limits.parsing (scan.reportTo r))

end Script

/-! ### Requests -/

namespace Session

open Script

def Step.isRequest : Step → Bool
  | .scan | .parse | .execute | .printTree => true
  | _ => false

def Blocked : Except Fault Answer → Prop
  | .ok (.tree tree?) => tree? = none
  | .ok (.execution e) => e = .rejected
  | .ok (.text text?) => text? = none
  | .ok _ => True
  | .error _ => False

/-- Whether a request to a script with the tree `tree?` is answered as if there were
none.  The one such request that needs the tree prints a tree that is too deep. -/
def Harmless (limits : Limits) (tree? : Option Expr) : Step → Prop
  | .scan => True
  | .printTree => ∀ e, tree? = some e → e.prefixForm limits.prefixPrinting = .error .exhausted
  | _ => tree? = none

theorem harmless_none (limits : Limits) (q : Step) : Harmless limits none q := by
  cases q <;> first | trivial | rfl | exact fun e h => nomatch h

variable {limits : Limits} {tree? : Option Expr} {s : Session σ}

structure Answers (limits : Limits) (tree? : Option Expr) (s : Session σ) (q : Step) : Prop where
  blocked_iff : Blocked (s.step limits q).1 ↔ Harmless limits tree? q
  settled : Settled limits tree? (s.step limits q).2.script
  sourceOnly : Harmless limits tree? q → SourceOnly s.reporter (s.step limits q).2.reporter

namespace Answers

variable {q : Step}

theorem of_harmless (hharmless : Harmless limits tree? q) (hblocked : Blocked (s.step limits q).1)
    (hsettled : Settled limits tree? (s.step limits q).2.script)
    (hsource : SourceOnly s.reporter (s.step limits q).2.reporter) : Answers limits tree? s q :=
  ⟨⟨fun _ => hharmless, fun _ => hblocked⟩, hsettled, fun _ => hsource⟩

theorem of_needed (hneeded : ¬ Harmless limits tree? q)
    (hanswer : ¬ Blocked (s.step limits q).1)
    (hsettled : Settled limits tree? (s.step limits q).2.script) : Answers limits tree? s q :=
  ⟨⟨fun h => absurd h hanswer, fun h => absurd h hneeded⟩, hsettled, fun h => absurd h hneeded⟩

end Answers

theorem answers_scan (h : Settled limits tree? s.script) : Answers limits tree? s .scan := by
  obtain ⟨hscript, hreporter⟩ := scan_of_settled h s.reporter
  refine .of_harmless trivial trivial ?_ ?_
  · show Settled limits tree? (s.script.scan s.reporter).script
    rwa [hscript]
  · show SourceOnly s.reporter (s.script.scan s.reporter).reporter
    rw [hreporter]
    exact .refl

theorem answers_parse (h : Parses limits tree? s.script s.reporter) :
    Answers limits tree? s .parse where
  blocked_iff := by
    show (s.script.parse limits s.reporter).answer = none ↔ tree? = none
    rw [h.answer]
  settled := h.settled
  sourceOnly _ := h.sourceOnly

theorem execute_of_none {t : Script} {r : Reporter σ} (h : (t.parse limits r).answer = none) :
    t.execute limits r = ⟨.ok .rejected, (t.parse limits r).script, (t.parse limits r).reporter⟩ := by
  rw [Script.execute]
  simp only [h]

theorem execute_of_some {t : Script} {r : Reporter σ} {e : Expr}
    (h : (t.parse limits r).answer = some e) :
    (t.execute limits r).answer ≠ .ok .rejected ∧
      (t.execute limits r).script = (t.parse limits r).script := by
  rw [Script.execute]
  simp only [h]
  split
  · split <;> simp
  · simp
  · simp

theorem answers_execute (h : Parses limits tree? s.script s.reporter) :
    Answers limits tree? s .execute := by
  have hstep : s.step limits .execute =
      ofTurn? .execution (s.script.execute limits s.reporter) := rfl
  cases tree? with
  | none =>
    rw [execute_of_none h.answer] at hstep
    refine .of_harmless rfl ?_ ?_ ?_ <;> rw [hstep]
    · rfl
    · exact h.settled
    · exact h.sourceOnly
  | some e =>
    obtain ⟨hanswer, hscript⟩ := execute_of_some h.answer
    refine .of_needed nofun (fun hblocked => ?_) ?_
    · rw [hstep] at hblocked
      cases hans : (s.script.execute limits s.reporter).answer with
      | error f => simp [ofTurn?, hans, Except.map, Blocked] at hblocked
      | ok execution =>
        simp only [ofTurn?, hans, Except.map, Blocked] at hblocked
        exact absurd (hblocked ▸ hans) hanswer
    · rw [hstep]
      show Settled limits (some e) (s.script.execute limits s.reporter).script
      rw [hscript]
      exact h.settled

theorem answers_printTree (h : Parses limits tree? s.script s.reporter) :
    Answers limits tree? s .printTree := by
  have hstep : s.step limits .printTree =
      ofTurn? .text (s.script.printTree limits s.reporter) := rfl
  obtain ⟨parsed, hparsed⟩ : ∃ t, t = s.script.parse limits s.reporter := ⟨_, rfl⟩
  obtain ⟨hanswer, hsettled, hsource⟩ := h
  rw [← hparsed] at hanswer hsettled hsource
  rw [Script.printTree, ← hparsed, hanswer] at hstep
  cases tree? with
  | none =>
    refine .of_harmless (harmless_none limits .printTree) ?_ ?_ ?_ <;> rw [hstep]
    · rfl
    · exact hsettled
    · exact hsource
  | some e =>
    have hharmless : Harmless limits (some e) .printTree ↔
        e.prefixForm limits.prefixPrinting = .error .exhausted := by simp [Harmless]
    cases hform : e.prefixForm limits.prefixPrinting with
    | ok text =>
      simp only [hform] at hstep
      refine .of_needed (by rw [hharmless, hform]; nofun) ?_ ?_ <;> rw [hstep]
      · nofun
      · exact hsettled
    | error halt =>
      simp only [hform] at hstep
      cases halt with
      | raised f =>
        refine .of_needed (by rw [hharmless, hform]; nofun) ?_ ?_ <;> rw [hstep]
        · nofun
        · exact hsettled
      | exhausted =>
        obtain ⟨hscript, hreporter⟩ := scan_of_settled hsettled parsed.reporter
        refine .of_harmless (hharmless.mpr hform) ?_ ?_ ?_ <;> rw [hstep]
        · rfl
        · show Settled limits (some e) (parsed.script.scan parsed.reporter).script
          rwa [hscript]
        · show SourceOnly s.reporter
            ((parsed.script.scan parsed.reporter).reporter.report (.source _ "" _))
          rw [hreporter]
          exact hsource.report _ _ _

theorem answers_of_parses {q : Step} (h : Parses limits tree? s.script s.reporter)
    (hq : q.isRequest = true) (hscan : q ≠ .scan) : Answers limits tree? s q := by
  cases q with
  | scan => exact absurd rfl hscan
  | parse => exact answers_parse h
  | execute => exact answers_execute h
  | printTree => exact answers_printTree h
  | report _ | start _ _ | runSource _ => cases hq

theorem answers_of_settled {q : Step} (h : Settled limits tree? s.script)
    (hq : q.isRequest = true) : Answers limits tree? s q := by
  by_cases hscan : q = .scan
  · subst hscan
    exact answers_scan h
  · exact answers_of_parses (parse_of_settled h s.reporter) hq hscan

/-! ### Sequences of requests -/

/-- Whether everything that comes of requests is blocked, with no runtime error
among what is reported since `r`. -/
def AllBlocked (r : Reporter σ) (turns : List (Except Fault Answer × Session σ)) : Prop :=
  ∀ turn ∈ turns, Blocked turn.1 ∧ SourceOnly r turn.2.reporter

/-- **Requests to a settled script are blocked exactly if they are harmless.** -/
theorem allBlocked_run_of_settled {qs : List Step} : ∀ {s : Session σ} {r : Reporter σ},
    Settled limits tree? s.script → SourceOnly r s.reporter → (∀ q ∈ qs, q.isRequest = true) →
      (AllBlocked r (s.run limits qs) ↔ ∀ q ∈ qs, Harmless limits tree? q) := by
  induction qs with
  | nil =>
    intro s r _ _ _
    simp [run, AllBlocked]
  | cons q qs ih =>
    intro s r hs hr hreq
    obtain ⟨hq, hqs⟩ := List.forall_mem_cons.mp hreq
    obtain ⟨hiff, hnext, hsource⟩ := answers_of_settled hs hq
    rw [run, AllBlocked, List.forall_mem_cons, List.forall_mem_cons, hiff]
    constructor
    · rintro ⟨⟨hharmless, hreached⟩, hrest⟩
      exact ⟨hharmless, (ih hnext hreached hqs).mp hrest⟩
    · rintro ⟨hharmless, hrest⟩
      have hreached := hr.trans (hsource hharmless)
      exact ⟨⟨hharmless, hreached⟩, (ih hnext hreached hqs).mpr hrest⟩

/-- **When lexical errors block.**  A script whose source has lexical errors answers
all requests as if it had no tree, without a runtime error, exactly if the first
request is no scan or none of the requests needs the tree of its tokens. -/
theorem allBlocked_run_iff {source : Source} (herr : (Scan.ofSource source).errors ≠ [])
    {qs : List Step} (hreq : ∀ q ∈ qs, q.isRequest = true) (places : Places) (r : Reporter σ) :
    AllBlocked r (run limits ⟨.ofSource source places, r⟩ qs) ↔
      (qs.head? = some .scan →
        ∀ q ∈ qs, Harmless limits ((Scan.ofSource source).tree? limits) q) := by
  cases qs with
  | nil => simp [run, AllBlocked]
  | cons q qs =>
    obtain ⟨hq, hqs⟩ := List.forall_mem_cons.mp hreq
    rw [run, AllBlocked, List.forall_mem_cons, List.head?_cons, List.forall_mem_cons]
    by_cases hscan : q = .scan
    · subst hscan
      -- the errors are reported now, and the tree of the tokens is still to come
      have hsettled : Settled limits ((Scan.ofSource source).tree? limits)
          (step limits ⟨.ofSource source places, r⟩ .scan).2.script :=
        ⟨Scan.ofSource source, rfl, Or.inr ⟨rfl, rfl⟩⟩
      have hsource : SourceOnly r (step limits ⟨.ofSource source places, r⟩ .scan).2.reporter :=
        (Scan.ofSource source).sourceOnly_reportTo r
      have hrun := allBlocked_run_of_settled hsettled hsource hqs
      constructor
      · rintro ⟨-, hrest⟩ -
        exact ⟨trivial, hrun.mp hrest⟩
      · intro hharmless
        exact ⟨⟨trivial, hsource⟩, hrun.mpr (hharmless rfl).2⟩
    · have hparses : Parses limits none (.ofSource source places) r :=
        parse_ofSource herr places r
      obtain ⟨hiff, hsettled, hsource⟩ :=
        answers_of_parses (s := ⟨.ofSource source places, r⟩) hparses hq hscan
      have hreached := hsource (harmless_none limits q)
      have hrun := allBlocked_run_of_settled hsettled hreached hqs
      constructor
      · intro _ hfirst
        exact absurd (Option.some.inj hfirst) hscan
      · intro _
        exact ⟨⟨hiff.mpr (harmless_none limits q), hreached⟩,
          hrun.mpr fun q _ => harmless_none limits q⟩

/-- A source with a tree in front of a lexical error. -/
def strayAfterNil : Source := .text "nil @"

theorem ofSource_strayAfterNil : Scan.ofSource strayAfterNil =
    ⟨[.operator .nilWord 1], [⟨.unexpectedCharacter, 1⟩], 1⟩ := by
  have hword : segments ('n' :: (['i', 'l'] ++ [' ', '@'])) =
      .word ['n', 'i', 'l'] :: segments [' ', '@'] :=
    segments_word rfl rfl (List.all_eq_true.mp rfl) rfl
  have hstray : segments ['@'] = [.stray '@'] := by
    have hcut : Segment.cut '@' [] = ⟨.stray '@', []⟩ := rfl
    rw [segments_of_cut hcut, segments]
  show Scan.ofSegments 1 (segments ('n' :: (['i', 'l'] ++ [' ', '@']))) = _
  rw [hword, segments_space, hstray]
  rfl

theorem allBlocked_strayAfterNil :
    (Scan.ofSource strayAfterNil).errors ≠ [] ∧
      (∀ q ∈ [Step.scan, .printTree, .execute], q.isRequest = true) ∧
      (AllBlocked (.fresh (Collected.mk #[]))
          (run .standard ⟨.ofSource strayAfterNil 2, .fresh (Collected.mk #[])⟩
            [.scan, .printTree, .execute]) ↔
        ([Step.scan, .printTree, .execute].head? = some .scan →
          ∀ q ∈ [Step.scan, .printTree, .execute],
            Harmless .standard ((Scan.ofSource strayAfterNil).tree? .standard) q)) := by
  have herr : (Scan.ofSource strayAfterNil).errors ≠ [] := by
    rw [ofSource_strayAfterNil]
    nofun
  have hreq : ∀ q ∈ [Step.scan, .printTree, .execute], q.isRequest = true := by decide
  exact ⟨herr, hreq, allBlocked_run_iff herr hreq 2 (.fresh (Collected.mk #[]))⟩

/-- **A scan made first opens the way to an evaluation**: there is a lexical error,
and the execution after the scan still has a tree and a value. -/
theorem scan_then_execute :
    (Scan.ofSource strayAfterNil).errors ≠ [] ∧
      ((run .standard ⟨.ofSource strayAfterNil 2, .fresh (Collected.mk #[])⟩
          [.scan, .execute]).map Prod.fst)[1]? =
        some (.ok (.execution (.finished (.literal .nil) .nil "nil"))) ∧
      ¬ AllBlocked (.fresh (Collected.mk #[]))
        (run .standard ⟨.ofSource strayAfterNil 2, .fresh (Collected.mk #[])⟩ [.scan, .execute]) := by
  obtain ⟨r, hr⟩ : ∃ r, r = Reporter.fresh (Collected.mk #[]) := ⟨_, rfl⟩
  obtain ⟨scanned, hscanned⟩ : ∃ s, s = (Script.ofSource strayAfterNil 2).scan r := ⟨_, rfl⟩
  have hsettled : Settled .standard (some (.literal .nil)) scanned.script := by
    rw [hscanned]
    exact ⟨Scan.ofSource strayAfterNil, rfl,
      Or.inr ⟨rfl, by rw [ofSource_strayAfterNil, Scan.tree?_eq_read (by decide)]; rfl⟩⟩
  have hexecute : (scanned.script.execute .standard scanned.reporter).answer =
      .ok (.finished (.literal .nil) .nil "nil") := by
    rw [Script.execute]
    simp only [(parse_of_settled hsettled scanned.reporter).answer]
    rfl
  have hanswer : ((run .standard ⟨.ofSource strayAfterNil 2, r⟩ [.scan, .execute]).map
      Prod.fst)[1]? = some (.ok (.execution (.finished (.literal .nil) .nil "nil"))) := by
    rw [hscanned] at hexecute
    exact congrArg (fun x : Except Fault Execution => some (x.map Answer.execution)) hexecute
  rw [← hr]
  refine ⟨by rw [ofSource_strayAfterNil]; nofun, hanswer, fun hall => ?_⟩
  obtain ⟨turn, hturn, hfirst⟩ := List.mem_map.mp (List.mem_of_getElem? hanswer)
  have hblocked := (hall turn hturn).1
  rw [hfirst] at hblocked
  cases hblocked

end Session

end LoxCalc
