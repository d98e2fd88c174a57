import LoxCalc.Proofs.Expr.Ends
import LoxCalc.Proofs.Parser.Diagnosis
import LoxCalc.Session

/-!
# The walks within their bounds

Reading tokens, evaluating a tree and printing it in either form are walks within a
bound.  **A bound can only put the error of a walk that went too deep in the place of an
answer**; it never leads to another tree, another value or another error.  An error that
comes before the bound is exceeded is the answer, and one that would come after it is
not looked for.

The walks over trees are `Bounded`.  Reading is no walk over a tree: its bound is looked
at after every token, and `read_mono` goes along the tokens.

A parse reports its error from inside the walk, so there is one more thing that a bound can
do: the tokens are read, and the report is broken off.  There is still no other answer, but
**two errors are counted and one is said** (`parse_deepSigns`).

* `onlyStops_evaluate`: an evaluation.
* `read_mono`: reading tokens within two bounds.
* `stoppedParse_iff`, `stoppedPrint_iff`: a walk that was stopped is reported once.
* `brokenParse_iff`: when the report of a parse is broken off.
* `limits_onlyStop`: all that the limits have a part in.
-/

namespace LoxCalc

/-! ### Evaluations -/

namespace Expr

variable (cost : Layer → Nat)

def StoppedEvaluation (outcome : Outcome) : Prop :=
  ∃ token, outcome = .error (.runtime ⟨token, .tooDeep⟩)

theorem onlyStops_evaluate (places : Int) (e : Expr) :
    OnlyStops StoppedEvaluation fun n => e.evaluate ⟨n, cost⟩ places := by
  obtain ⟨hunbounded, hmono, hreached⟩ := bounded_eval cost places e
  refine .of_mono ?_ (fun m n hmn => ?_) ?_
  · rintro ⟨token, htoken⟩
    rw [evaluate] at htoken
    cases hnone : e.eval places ⟨none, cost⟩ with
    | ok v => simp [hnone] at htoken
    | error halt =>
      cases halt with
      | exhausted => exact hunbounded hnone
      | raised t =>
        simp only [hnone, Except.error.injEq] at htoken
        exact eval_ne_tooDeep e places ⟨none, cost⟩ token (by rw [hnone, htoken])
  · rcases hmono m n hmn with heq | hstop
    · exact Or.inl (by rw [evaluate, evaluate, heq])
    · exact Or.inr ⟨e.anchor, by rw [evaluate, hstop]⟩
  · obtain ⟨n, hn⟩ := hreached
    exact ⟨n, by rw [evaluate, evaluate, hn]⟩

end Expr

/-! ### Parses -/

namespace Parser

variable (cost : Opening → Nat)

theorem covers_of_boundLE {m n : Option Nat} (hmn : BoundLE m n) {spent : Nat}
    (h : (Allowance.mk m cost).covers spent = true) :
    (Allowance.mk n cost).covers spent = true := by
  cases n with
  | none => rfl
  | some n =>
    cases m with
    | none => exact hmn.elim
    | some m =>
      have hle : m ≤ n := hmn
      exact decide_eq_true (Nat.le_trans (of_decide_eq_true h) hle)

/-- A bound that does not exhaust reading lets it come to the same end as a greater one. -/
theorem read_mono {m n : Option Nat} (hmn : BoundLE m n) : ∀ (tokens : List Token) (p : Phase),
    read ⟨m, cost⟩ p tokens = read ⟨n, cost⟩ p tokens ∨
      (read ⟨m, cost⟩ p tokens).result = .error .exhausted := by
  have hstop : ∀ (p : Phase) (stop : Except SyntaxError.Cause Expr),
      stopAt ⟨m, cost⟩ p stop = stopAt ⟨n, cost⟩ p stop ∨
        (stopAt ⟨m, cost⟩ p stop).result = .error .exhausted := by
    intro p stop
    cases stop with
    | ok tree => exact Or.inl rfl
    | error cause =>
      rw [stopAt, stopAt]
      by_cases hm : (Allowance.mk m cost).covers (p.reportDepth cost cause) = true
      · rw [if_pos hm, if_pos (covers_of_boundLE cost hmn hm)]
        exact Or.inl rfl
      · rw [if_neg hm]
        exact Or.inr rfl
  intro tokens
  induction tokens with
  | nil => exact fun p => hstop p p.finish
  | cons t ts ih =>
    intro p
    rw [read, read]
    cases p.step t with
    | error cause => exact hstop p (.error cause)
    | ok next =>
      by_cases hm : (Allowance.mk m cost).covers (depth cost next.stack) = true
      · simp only [if_pos hm, if_pos (covers_of_boundLE cost hmn hm)]
        rcases ih next with heq | hstop
        · exact Or.inl (by rw [heq])
        · exact Or.inr hstop
      · simp only [if_neg hm]
        exact Or.inr trivial

/-- What a report that was broken off was to say is what reading without a bound ends in. -/
theorem read_unbounded_of_brokenOff {n : Option Nat} {cause : SyntaxError.Cause} :
    ∀ {tokens : List Token} {p : Phase}, (read ⟨n, cost⟩ p tokens).brokenOff = some cause →
      read ⟨none, cost⟩ p tokens =
        ⟨.error (.raised cause), (read ⟨n, cost⟩ p tokens).count, none⟩ := by
  have hstop : ∀ {p : Phase} (stop : Except SyntaxError.Cause Expr),
      (stopAt ⟨n, cost⟩ p stop).brokenOff = some cause →
        stopAt ⟨none, cost⟩ p stop =
          ⟨.error (.raised cause), (stopAt ⟨n, cost⟩ p stop).count, none⟩ := by
    intro p stop h
    cases stop with
    | ok tree => cases h
    | error refused =>
      have hreport : (Allowance.mk none cost).covers (p.reportDepth cost refused) = true := rfl
      rw [stopAt] at h
      rw [stopAt, stopAt, if_pos hreport]
      split at h
      · cases h
      · rename_i hno
        obtain rfl : refused = cause := Option.some.inj h
        rw [if_neg hno]
  intro tokens
  induction tokens with
  | nil => exact fun {p} => hstop p.finish
  | cons t ts ih =>
    intro p h
    rw [read] at h
    rw [read, read]
    cases hstep : p.step t with
    | error refused =>
      rw [hstep] at h
      exact hstop (.error refused) h
    | ok next =>
      rw [hstep] at h
      dsimp only at h ⊢
      have hnone : (Allowance.mk none cost).covers (depth cost next.stack) = true := rfl
      rw [if_pos hnone]
      split at h
      · rename_i hcovers
        rw [if_pos hcovers, ih h]
      · cases h

variable {σ : Type} [Sink σ]

abbrev Outcome (σ : Type) : Type :=
  (Except SyntaxError Expr × Parser) × (Option Expr × Parser × Reporter σ)

def outcome (p : Parser) (r : Reporter σ) (n : Option Nat) : Outcome σ :=
  (p.parse ⟨n, cost⟩, p.parseReporting ⟨n, cost⟩ r)

/-- A parse that was stopped, with what it reported to `r`: there is no tree, and the one
report says so at the token where the parser stands. -/
def StoppedParse (r : Reporter σ) (outcome : Outcome σ) : Prop :=
  ∃ after : Parser, outcome =
    ((.error ⟨.tooDeep, after.current⟩, after),
      (none, after, r.report (.ofSyntax ⟨.tooDeep, after.current⟩)))

/-- A parse of which the report was broken off.  The error is the one that is found without a
bound and the parser stands where it stands then, but the error is only counted; what is reported
in its place is counted once more. -/
def BrokenParse (p : Parser) (r : Reporter σ) (outcome : Outcome σ) : Prop :=
  ∃ (e : SyntaxError) (after : Parser), p.parse ⟨none, cost⟩ = (.error e, after) ∧
    outcome = ((.error ⟨.tooDeep, after.current⟩, after),
      (none, after, (r.count (.ofSyntax e)).report (.ofSyntax ⟨.tooDeep, after.current⟩)))

variable {cost} {n : Option Nat} {p : Parser} {r : Reporter σ}

theorem stoppedParse_of_not_covers
    (h : (Allowance.mk n cost).covers (nesting cost p.rest) = false) :
    StoppedParse r (p.outcome cost r n) := by
  obtain ⟨hresult, hbroken⟩ := read_of_not_covers (p := .initial) h
  refine ⟨p.advance (read ⟨n, cost⟩ .initial p.rest).count, ?_⟩
  rw [outcome, parseReporting_eq, Parser.entries, Reading.entries, parse_eq, hresult, hbroken]
  rfl

theorem brokenParse_of_brokenOff {cause : SyntaxError.Cause}
    (hresult : (read ⟨n, cost⟩ .initial p.rest).result = .error .exhausted)
    (hbroken : (read ⟨n, cost⟩ .initial p.rest).brokenOff = some cause) :
    BrokenParse cost p r (p.outcome cost r n) := by
  have hfree := read_unbounded_of_brokenOff cost hbroken
  refine ⟨⟨cause, (p.advance (read ⟨n, cost⟩ .initial p.rest).count).current⟩,
    p.advance (read ⟨n, cost⟩ .initial p.rest).count, ?_, ?_⟩
  · rw [parse_eq, hfree]
    rfl
  · rw [outcome, parseReporting_eq, Parser.entries, Reading.entries, parse_eq, hresult, hbroken]
    rfl

theorem brokenParse_of_covers (hread : (Allowance.mk n cost).covers (nesting cost p.rest) = true)
    (hreport : (Allowance.mk n cost).covers (nestingWithReport cost p.rest) = false) :
    BrokenParse cost p r (p.outcome cost r n) := by
  obtain ⟨hresult, cause, hbroken⟩ := brokenOff_read (p := .initial) hread hreport
  exact brokenParse_of_brokenOff hresult hbroken

theorem parse_ne_tooDeep
    (h : (Allowance.mk n cost).covers (nestingWithReport cost p.rest) = true) (t : Token) :
    (p.parse ⟨n, cost⟩).1 ≠ .error ⟨.tooDeep, t⟩ := by
  intro hparse
  have hne := (read_of_covers (p := .initial) h).1
  obtain ⟨-, q, stop, hrun, hresult, hend⟩ := read_stops (p := .initial) (covers_peak h)
  rw [parse_eq, hresult] at hparse
  rw [hresult] at hne
  cases stop with
  | ok tree => cases hparse
  | error cause =>
    rw [stopAt] at hparse hne
    split at hparse
    · obtain rfl : cause = .tooDeep := (SyntaxError.mk.inj (Except.error.inj hparse)).1
      refine SyntaxError.Cause.after_ne_tooDeep _ (cause_eq_after hrun ?_).symm
      rcases hend with ⟨t, cause, -, hrefused, hstop⟩ | ⟨-, hstop⟩
      · cases hstop
        exact Or.inr ⟨t, hrefused⟩
      · exact Or.inl hstop.symm
    · rename_i hno
      rw [if_neg hno] at hne
      exact hne rfl

theorem not_stopped_of_broken {outcome : Outcome σ} (h : BrokenParse cost p r outcome) :
    ¬ StoppedParse r outcome := by
  obtain ⟨e, after, -, rfl⟩ := h
  rintro ⟨after', hafter⟩
  have hcount : r.errorCount + 1 + 1 = r.errorCount + 1 :=
    congrArg (fun outcome : Outcome σ => outcome.2.2.2.errorCount) hafter
  omega

/-- **A parse is stopped** exactly if its tokens are nested too deeply to be read. -/
theorem stoppedParse_iff :
    StoppedParse r (p.outcome cost r n) ↔
      (Allowance.mk n cost).covers (nesting cost p.rest) = false := by
  refine ⟨fun h => ?_, stoppedParse_of_not_covers⟩
  rw [← Bool.not_eq_true]
  intro hread
  cases hreport : (Allowance.mk n cost).covers (nestingWithReport cost p.rest) with
  | false => exact not_stopped_of_broken (brokenParse_of_covers hread hreport) h
  | true =>
    obtain ⟨after, hafter⟩ := h
    exact parse_ne_tooDeep hreport after.current (congrArg (·.1.1) hafter)

/-- **A report is broken off** exactly if the tokens can be read and not be reported on. -/
theorem brokenParse_iff :
    BrokenParse cost p r (p.outcome cost r n) ↔
      (Allowance.mk n cost).covers (nesting cost p.rest) = true ∧
        (Allowance.mk n cost).covers (nestingWithReport cost p.rest) = false := by
  refine ⟨fun h => ⟨?_, ?_⟩, fun ⟨hread, hreport⟩ => brokenParse_of_covers hread hreport⟩
  · rw [← Bool.not_eq_false]
    exact fun hread => not_stopped_of_broken h (stoppedParse_of_not_covers hread)
  · rw [← Bool.not_eq_true]
    intro hreport
    obtain ⟨e, after, -, hafter⟩ := h
    exact parse_ne_tooDeep hreport after.current (congrArg (·.1.1) hafter)

theorem stopped_or_broken_iff :
    StoppedParse r (p.outcome cost r n) ∨
        BrokenParse cost p r (p.outcome cost r n) ↔
      (Allowance.mk n cost).covers (nestingWithReport cost p.rest) = false := by
  rw [stoppedParse_iff, brokenParse_iff]
  constructor
  · rintro (hread | ⟨-, hreport⟩)
    · rw [← Bool.not_eq_true] at hread ⊢
      exact fun hreport => hread (covers_peak hreport)
    · exact hreport
  · intro hreport
    cases hread : (Allowance.mk n cost).covers (nesting cost p.rest) with
    | false => exact Or.inl rfl
    | true => exact Or.inr ⟨rfl, hreport⟩

/-- **A parse** gives its tree, or makes its report and stops at its token, within every
bound that neither stops it nor breaks its report off. -/
theorem onlyStops_parse (cost : Opening → Nat) (p : Parser) (r : Reporter σ) :
    OnlyStops (fun outcome => StoppedParse r outcome ∨ BrokenParse cost p r outcome)
      (p.outcome cost r) := by
  have hsame : ∀ {m n : Option Nat},
      read ⟨m, cost⟩ .initial p.rest = read ⟨n, cost⟩ .initial p.rest →
        p.outcome cost r m = p.outcome cost r n := by
    intro m n h
    rw [outcome, outcome, parseReporting_eq, parseReporting_eq, Parser.entries, Parser.entries,
      parse_eq, parse_eq, h]
  have hstops : ∀ {n : Option Nat}, (read ⟨n, cost⟩ .initial p.rest).result = .error .exhausted →
      (Allowance.mk n cost).covers (nestingWithReport cost p.rest) = false := by
    intro n h
    rw [← Bool.not_eq_true]
    exact fun hreport => (read_of_covers (p := .initial) hreport).1 h
  refine .of_mono ?_ (fun m n hmn => ?_) ⟨nestingWithReport cost p.rest, ?_⟩
  · rw [stopped_or_broken_iff]
    exact fun hfalse => Bool.false_ne_true hfalse.symm
  · rcases read_mono cost hmn p.rest .initial with heq | hstop
    · exact Or.inl (hsame heq)
    · exact Or.inr (stopped_or_broken_iff.mpr (hstops hstop))
  · have hcovers : (Allowance.mk (some (nestingWithReport cost p.rest)) cost).covers
        (nestingWithReport cost p.rest) = true := decide_eq_true (Nat.le_refl _)
    rcases read_mono cost (m := some (nestingWithReport cost p.rest)) (n := none) trivial p.rest
      .initial with heq | hstop
    · exact hsame heq
    · rw [hstops hstop] at hcovers
      cases hcovers

/-! ### Signs without an operand -/

/-- Prefix operators and a closing parenthesis, which is no operand. -/
def signs (count : Nat) : List Token :=
  List.replicate count (.operator .minus 1) ++ [.operator .rightParen 1]

theorem read_signs (count : Nat) : ∀ stack : List Frame,
    read ⟨some (depth Limits.openingCost stack + count), Limits.openingCost⟩ (.operand stack)
      (signs count) = ⟨.error .exhausted, count, some .expectExpression⟩ := by
  induction count with
  | zero =>
    intro stack
    have hno : ¬ (Allowance.mk (some (depth Limits.openingCost stack + 0))
        Limits.openingCost).covers
          ((Phase.operand stack).reportDepth Limits.openingCost .expectExpression) = true :=
      fun h => Nat.not_succ_le_self _ (of_decide_eq_true h)
    exact if_neg hno
  | succ count ih =>
    intro stack
    have hdepth : depth Limits.openingCost (.sign (.operator .minus 1) :: stack) =
        depth Limits.openingCost stack + 1 := Nat.add_comm _ _
    have hrest := ih (.sign (.operator .minus 1) :: stack)
    rw [hdepth, Nat.add_right_comm, Nat.add_assoc] at hrest
    have hcovers : (Allowance.mk (some (depth Limits.openingCost stack + (count + 1)))
        Limits.openingCost).covers (depth Limits.openingCost
          (Phase.operand (.sign (.operator .minus 1) :: stack)).stack) = true := by
      refine decide_eq_true ?_
      rw [Phase.stack, hdepth]
      omega
    show read _ _ (.operator .minus 1 :: signs count) = _
    rw [read]
    show (if _ then _ else _) = _
    rw [if_pos hcovers, hrest]

variable {count : Nat} {s : TokenStream}

theorem rest_signs (hs : s.tokens = signs count ++ [.endOfInput 1]) :
    (ofStream s).rest = signs count := by
  have hkinds : ∀ t ∈ signs count, decide (t.kind ≠ .eof) = true := by
    intro t ht
    rcases List.mem_append.mp ht with hsign | hparen
    · rw [List.eq_of_mem_replicate hsign]
      rfl
    · rw [List.mem_singleton.mp hparen]
      rfl
  show s.tokens.takeWhile _ = _
  rw [hs, List.takeWhile_append_of_pos hkinds]
  exact List.append_nil _

theorem read_rest_signs (hs : s.tokens = signs count ++ [.endOfInput 1]) :
    read ⟨some count, Limits.openingCost⟩ .initial (ofStream s).rest =
      ⟨.error .exhausted, count, some .expectExpression⟩ := by
  have hread := read_signs count []
  rw [depth, Nat.zero_add] at hread
  rw [rest_signs hs]
  exact hread

/-- **An error that is counted twice and said once**: the report of the missing operand is broken
off, and the depth is reported in its place. -/
theorem parseReporting_signs (hs : s.tokens = signs count ++ [.endOfInput 1]) (r : Reporter σ) :
    (ofStream s).parseReporting ⟨some count, Limits.openingCost⟩ r =
      (none, (ofStream s).advance count,
        (r.count (.source 1 " at ')'" "Expect expression.")).report
          (.source 1 " at ')'" "Expression nesting too deep.")) := by
  have hcurrent : ((ofStream s).advance count).current = .operator .rightParen 1 := by
    rw [current, advance, ofStream, Nat.zero_add]
    refine TokenStream.tokenAt_of_getElem? ?_
    rw [hs, signs, List.append_assoc, List.getElem?_append_right (by simp)]
    simp
  rw [parseReporting_eq, Parser.entries, parse_eq, read_rest_signs hs, hcurrent]
  rfl

theorem brokenParse_signs (hs : s.tokens = signs count ++ [.endOfInput 1]) (r : Reporter σ) :
    BrokenParse Limits.openingCost (ofStream s) r
      ((ofStream s).outcome Limits.openingCost r (some count)) := by
  have hread := read_rest_signs hs
  exact brokenParse_of_brokenOff (congrArg Reading.result hread) (congrArg Reading.brokenOff hread)

end Parser

/-! ### Requests for a printed tree -/

def Limits.printingWithin (limits : Limits) (n : Option Nat) : Limits :=
  { limits with prefixPrinting := ⟨n, limits.prefixPrinting.cost⟩ }

namespace Script

variable {σ : Type} [Sink σ]

/-- A script that has been parsed has been scanned as well.  Every script is so, see
`Session.coherent_step`. -/
def Coherent (s : Script) : Prop :=
  s.scanned = none → s.parsed = none

theorem coherent_ofSource (source : Source) (places : Places) : (ofSource source places).Coherent :=
  fun _ => rfl

variable {s : Script} {limits : Limits} {r : Reporter σ}

theorem exists_scanned_scan (s : Script) (r : Reporter σ) :
    ∃ scan, (s.scan r).script.scanned = some scan := by
  rw [Script.scan]
  cases h : s.scanned with
  | none => exact ⟨_, rfl⟩
  | some scan => exact ⟨scan, h⟩

theorem Coherent.exists_scanned_parse (hs : s.Coherent) (limits : Limits) (r : Reporter σ) :
    ∃ scan, (s.parse limits r).script.scanned = some scan := by
  rw [Script.parse]
  cases hparsed : s.parsed with
  | some tree =>
    cases hscanned : s.scanned with
    | none =>
      rw [hs hscanned] at hparsed
      cases hparsed
    | some scan => exact ⟨scan, rfl⟩
  | none => exact s.exists_scanned_scan r

theorem coherent_of_scanned (h : ∃ scan, s.scanned = some scan) : s.Coherent := by
  obtain ⟨scan, hscan⟩ := h
  intro hnone
  rw [hscan] at hnone
  cases hnone

theorem execute_script (limits : Limits) (s : Script) (r : Reporter σ) :
    (s.execute limits r).script = (s.parse limits r).script := by
  rw [Script.execute]
  split
  · rfl
  · split
    · split <;> rfl
    · rfl
    · rfl

theorem Coherent.exists_scanned_printTree (hs : s.Coherent) (limits : Limits) (r : Reporter σ) :
    ∃ scan, (s.printTree limits r).script.scanned = some scan := by
  have hparsed := hs.exists_scanned_parse limits r
  rw [Script.printTree]
  split
  · exact hparsed
  · split
    · exact hparsed
    · exact hparsed
    · exact exists_scanned_scan _ _

/-- An answer to a request for the printed tree when printing was stopped: there is no
text, and there is one more report than of the parse. -/
def StoppedPrint (limits : Limits) (s : Script) (r : Reporter σ)
    (turn : Turn σ (Except Fault (Option String))) : Prop :=
  turn.answer = .ok none ∧ ∃ line, turn.reporter =
    (s.parse limits r).reporter.report (.source line "" SyntaxError.Cause.tooDeep.message)

theorem printTree_printingWithin (s : Script) (limits : Limits) (r : Reporter σ) (n : Option Nat) :
    s.printTree (limits.printingWithin n) r =
      let parsed := s.parse limits r
      match parsed.answer with
      | none => ⟨.ok none, parsed.script, parsed.reporter⟩
      | some tree =>
        match tree.prefixForm ⟨n, limits.prefixPrinting.cost⟩ with
        | .ok text => ⟨.ok (some text), parsed.script, parsed.reporter⟩
        | .error (.raised f) => ⟨.error f, parsed.script, parsed.reporter⟩
        | .error .exhausted =>
          let scanned := parsed.script.scan parsed.reporter
          let first := (TokenStream.ofScan scanned.answer).tokenAt 0
          ⟨.ok none, scanned.script,
            scanned.reporter.report (.source first.line "" SyntaxError.Cause.tooDeep.message)⟩ :=
  rfl

/-- **A tree that is too deep to print is reported once**, and nothing else is answered
in this way. -/
theorem stoppedPrint_iff (hs : s.Coherent) {n : Option Nat} :
    StoppedPrint limits s r (s.printTree (limits.printingWithin n) r) ↔
      ∃ tree, (s.parse limits r).answer = some tree ∧
        tree.prefixForm ⟨n, limits.prefixPrinting.cost⟩ = .error .exhausted := by
  obtain ⟨scan, hscan⟩ := hs.exists_scanned_parse limits r
  cases hanswer : (s.parse limits r).answer with
  | none =>
    simp only [StoppedPrint, printTree_printingWithin, hanswer]
    constructor
    · rintro ⟨-, line, hreporter⟩
      have hcount : (s.parse limits r).reporter.errorCount =
          (s.parse limits r).reporter.errorCount + 1 := congrArg Reporter.errorCount hreporter
      omega
    · rintro ⟨tree, htree, -⟩
      cases htree
  | some tree =>
    cases hform : tree.prefixForm ⟨n, limits.prefixPrinting.cost⟩ with
    | ok text => simp [StoppedPrint, printTree_printingWithin, hanswer, hform]
    | error halt =>
      cases halt with
      | raised f => simp [StoppedPrint, printTree_printingWithin, hanswer, hform]
      | exhausted =>
        simp only [StoppedPrint, printTree_printingWithin, hanswer, hform, Script.scan, hscan]
        exact ⟨fun _ => ⟨tree, rfl, hform⟩, fun _ => ⟨trivial, _, rfl⟩⟩

/-- **A request for the printed tree** gives its text within every bound that does not
stop the printing.  A script without a tree is not printed, whatever the bound. -/
theorem onlyStops_printTree (hs : s.Coherent) (limits : Limits) (r : Reporter σ) :
    OnlyStops (StoppedPrint limits s r) fun n => s.printTree (limits.printingWithin n) r := by
  cases hanswer : (s.parse limits r).answer with
  | none =>
    have hconst : ∀ m n, s.printTree (limits.printingWithin m) r =
        s.printTree (limits.printingWithin n) r := by
      intro m n
      simp only [printTree_printingWithin, hanswer]
    refine .of_mono ?_ (fun m n _ => Or.inl (hconst m n)) ⟨0, hconst _ _⟩
    rw [stoppedPrint_iff hs]
    rintro ⟨tree, htree, -⟩
    rw [hanswer] at htree
    cases htree
  | some tree =>
    obtain ⟨hunbounded, hmono, hreached⟩ :=
      tree.bounded_prefixForm limits.prefixPrinting.cost
    have hsame : ∀ {m n : Option Nat}, tree.prefixForm ⟨m, limits.prefixPrinting.cost⟩ =
        tree.prefixForm ⟨n, limits.prefixPrinting.cost⟩ →
          s.printTree (limits.printingWithin m) r = s.printTree (limits.printingWithin n) r := by
      intro m n h
      simp only [printTree_printingWithin, hanswer, h]
    refine .of_mono ?_ (fun m n hmn => ?_) ?_
    · rw [stoppedPrint_iff hs]
      rintro ⟨other, hother, hform⟩
      obtain rfl : tree = other := Option.some.inj (hanswer.symm.trans hother)
      exact hunbounded hform
    · rcases hmono m n hmn with heq | hstop
      · exact Or.inl (hsame heq)
      · exact Or.inr ((stoppedPrint_iff hs).mpr ⟨tree, hanswer, hstop⟩)
    · obtain ⟨n, hn⟩ := hreached
      exact ⟨n, hsame hn⟩

end Script

/-- **Scripts are coherent**: a new one is, and no step makes one that is not. -/
theorem Session.coherent_step {σ : Type} [Sink σ] {s : Session σ} (hs : s.script.Coherent)
    (limits : Limits) (q : Step) : (s.step limits q).2.script.Coherent := by
  cases q with
  | report d => exact hs
  | start source places => exact Script.coherent_ofSource source places
  | scan => exact Script.coherent_of_scanned (s.script.exists_scanned_scan s.reporter)
  | parse => exact Script.coherent_of_scanned (hs.exists_scanned_parse limits s.reporter)
  | execute =>
    refine Script.coherent_of_scanned ?_
    show ∃ scan, (s.script.execute limits s.reporter).script.scanned = some scan
    rw [Script.execute_script]
    exact hs.exists_scanned_parse limits s.reporter
  | printTree => exact Script.coherent_of_scanned (hs.exists_scanned_printTree limits s.reporter)
  | runSource source => exact hs

/-! ### All limits -/

/-- **What the limits can do**, to a parse of any tokens, to an evaluation and the two
printed forms of any tree, and to a request for the printed tree.  A parse is stopped if its
tokens cannot be read, and its report is broken off if they can be read and not be reported on. -/
theorem limits_onlyStop {σ : Type} [Sink σ] {tokens : List Token}
    (hend : tokens.getLast?.map Token.kind = some .eof) {s : Script} (hs : s.Coherent)
    (limits : Limits) (e : Expr) (places : Int) (r : Reporter σ) :
    (∃ stream, TokenStream.ofTokens? tokens = some stream ∧
      OnlyStops
        (fun outcome => Parser.StoppedParse r outcome ∨
          Parser.BrokenParse limits.parsing.cost (.ofStream stream) r outcome)
        ((Parser.ofStream stream).outcome limits.parsing.cost r) ∧
      ∀ n,
        (Parser.StoppedParse r ((Parser.ofStream stream).outcome limits.parsing.cost r n) ↔
          (Allowance.mk n limits.parsing.cost).covers (Parser.nesting limits.parsing.cost
            (tokens.takeWhile (·.kind ≠ .eof))) = false) ∧
        (Parser.BrokenParse limits.parsing.cost (.ofStream stream) r
            ((Parser.ofStream stream).outcome limits.parsing.cost r n) ↔
          (Allowance.mk n limits.parsing.cost).covers (Parser.nesting limits.parsing.cost
              (tokens.takeWhile (·.kind ≠ .eof))) = true ∧
            (Allowance.mk n limits.parsing.cost).covers (Parser.nestingWithReport
              limits.parsing.cost (tokens.takeWhile (·.kind ≠ .eof))) = false)) ∧
      OnlyStops Expr.StoppedEvaluation
        (fun n => e.evaluate ⟨n, limits.evaluating.cost⟩ places) ∧
      OnlyStops (· = .error .exhausted)
        (fun n => e.prefixForm ⟨n, limits.prefixPrinting.cost⟩) ∧
      OnlyStops (· = .error .exhausted)
        (fun n => e.infixForm ⟨n, limits.infixPrinting.cost⟩) ∧
      OnlyStops (Script.StoppedPrint limits s r)
        (fun n => s.printTree (limits.printingWithin n) r) ∧
      ∀ n, Script.StoppedPrint limits s r (s.printTree (limits.printingWithin n) r) ↔
        ∃ tree, (s.parse limits r).answer = some tree ∧
          tree.prefixForm ⟨n, limits.prefixPrinting.cost⟩ = .error .exhausted := by
  obtain ⟨stream, hstream, hbody, -⟩ := TokenStream.ofTokens?_of_getLast? hend
  rw [← hbody]
  exact ⟨⟨stream, hstream, Parser.onlyStops_parse _ _ r, fun n =>
      ⟨Parser.stoppedParse_iff, Parser.brokenParse_iff⟩⟩,
    Expr.onlyStops_evaluate _ places e,
    (e.bounded_prefixForm _).onlyStops, (e.bounded_infixForm _).onlyStops,
    Script.onlyStops_printTree hs limits r, fun _ => Script.stoppedPrint_iff hs⟩

def unclosedGroup : List Token :=
  [.operator .leftParen 1, .operator .trueWord 1, .endOfInput 1]

def doubleNegation : Expr :=
  .unary (.operator .minus 1) (.grouping (.unary (.operator .minus 1) (.literal .nil)))

theorem limits_onlyStop_unclosedGroup :
    unclosedGroup.getLast?.map Token.kind = some .eof ∧
      (Script.ofSource (.text "nil") 2).Coherent ∧
      (∃ stream, TokenStream.ofTokens? unclosedGroup = some stream ∧
        OnlyStops
          (fun outcome => Parser.StoppedParse (.fresh (Collected.mk #[])) outcome ∨
            Parser.BrokenParse Limits.standard.parsing.cost (.ofStream stream)
              (.fresh (Collected.mk #[])) outcome)
          ((Parser.ofStream stream).outcome Limits.standard.parsing.cost
            (.fresh (Collected.mk #[])))) ∧
      OnlyStops Expr.StoppedEvaluation
        (fun n => doubleNegation.evaluate ⟨n, Limits.standard.evaluating.cost⟩ 6) := by
  have hend : unclosedGroup.getLast?.map Token.kind = some .eof := by decide
  have hs : (Script.ofSource (.text "nil") 2).Coherent := Script.coherent_ofSource _ _
  obtain ⟨⟨stream, hstream, hparse, -⟩, heval, -⟩ :=
    limits_onlyStop hend hs .standard doubleNegation 6 (.fresh (Collected.mk #[]))
  exact ⟨hend, hs, ⟨stream, hstream, hparse⟩, heval⟩

/-- **The parse of 982 signs and a closing parenthesis** is neither what it is without a bound nor
one report of the depth: there is one message, and two errors are counted. -/
theorem parse_deepSigns :
    ∃ stream, TokenStream.ofTokens? (Parser.signs 982 ++ [Token.endOfInput 1]) = some stream ∧
      ∃ outcome, outcome = (Parser.ofStream stream).outcome Limits.standard.parsing.cost
          (.fresh (Collected.mk #[])) ∧
        outcome Limits.standard.parsing.frames ≠ outcome none ∧
        ¬ Parser.StoppedParse (.fresh (Collected.mk #[]))
          (outcome Limits.standard.parsing.frames) ∧
        (outcome Limits.standard.parsing.frames).2.2.2 =
          ⟨⟨#["[line 1] Error at ')': Expression nesting too deep."]⟩, 2, true, false⟩ := by
  have hend : (Parser.signs 982 ++ [Token.endOfInput 1]).getLast?.map Token.kind = some .eof := by
    rw [List.getLast?_concat]
    rfl
  obtain ⟨stream, hstream, -⟩ := TokenStream.ofTokens?_of_getLast? hend
  have htokens := TokenStream.ofTokens?_eq_some hstream
  have hbroken := Parser.brokenParse_signs htokens (.fresh (Collected.mk #[]))
  refine ⟨stream, hstream, _, rfl, fun hsame => ?_, Parser.not_stopped_of_broken hbroken, ?_⟩
  · refine (Parser.onlyStops_parse Limits.openingCost (.ofStream stream)
      (.fresh (Collected.mk #[]))).unbounded (Or.inr ?_)
    have hfree : Parser.BrokenParse Limits.openingCost (.ofStream stream)
      (.fresh (Collected.mk #[])) _ := hsame ▸ hbroken
    exact hfree
  · have hreport := Parser.parseReporting_signs htokens (.fresh (Collected.mk #[]))
    exact congrArg (fun answer => answer.2.2) hreport

end LoxCalc
