import LoxCalc.Proofs.Parser.Run
import LoxCalc.Session

/-!
# What requests do

A request to a script gives an answer and a script, and it makes entries.  **None of the
three depends on the reporter**: a request makes the same `Move` with every reporter,
whatever this has counted before and whatever its sink is.  The one place where the count
is looked at is the parse, and there it is looked at twice, so that only the entries
between the two looks play a part.

A parse may break a report off, and then it says something else; so **what is counted and not said
raises no flag that is not raised anyway** (`Entry.MadeUp`).

* `Script.parse_eq`: a parse, with its decision whether there is a tree.
* `Script.execute_eq`: an execution, in terms of the parse.
* `Session.exists_move_step`: every step is a move.
-/

namespace LoxCalc

open Entry

/-! ### Reports that are broken off -/

/-- Whether tokens can be parsed within a bound and the error in them cannot be reported. -/
def Parser.breaksOff (a : Allowance Parser.Opening) (tokens : List Token) : Bool :=
  a.covers (nesting a.cost tokens) && !a.covers (nestingWithReport a.cost tokens)

/-- **A parse breaks off one report at most**, and it does so if its tokens are such. -/
theorem Parser.countP_entries (a : Allowance Parser.Opening) (p : Parser) :
    (p.entries a).countP isCount = (breaksOff a p.rest).toNat := by
  rw [entries, Reading.entries, breaksOff]
  cases hread : a.covers (nesting a.cost p.rest) with
  | false =>
    obtain ⟨hresult, hbroken⟩ := read_of_not_covers (p := .initial) hread
    rw [hresult, hbroken]
    rfl
  | true =>
    cases hreport : a.covers (nestingWithReport a.cost p.rest) with
    | false =>
      obtain ⟨hresult, cause, hbroken⟩ := brokenOff_read (p := .initial) hread hreport
      rw [hresult, hbroken]
      rfl
    | true =>
      have hne := (read_of_covers (p := .initial) hreport).1
      cases hresult : (read a .initial p.rest).result with
      | ok tree => rfl
      | error halt =>
        cases halt with
        | raised cause => rfl
        | exhausted => exact absurd hresult hne

namespace Entry

/-- Whether all reports that were broken off were about a source, and so are others that were
made. -/
def MadeUp (es : List Entry) : Prop :=
  ∀ d, .count d ∈ es → d.isRuntime = false ∧ ∃ d' ∈ diagnostics es, d'.isRuntime = false

namespace MadeUp

variable {es es' : List Entry}

theorem append (h : MadeUp es) (h' : MadeUp es') : MadeUp (es ++ es') := by
  intro d hd
  rw [diagnostics_append]
  rcases List.mem_append.mp hd with hd | hd
  · obtain ⟨hsource, d', hd', hsource'⟩ := h d hd
    exact ⟨hsource, d', List.mem_append_left _ hd', hsource'⟩
  · obtain ⟨hsource, d', hd', hsource'⟩ := h' d hd
    exact ⟨hsource, d', List.mem_append_right _ hd', hsource'⟩

theorem nil : MadeUp [] := fun _ => nofun

theorem report (d : Diagnostic) : MadeUp [.report d] := by
  intro d' hd'
  cases List.mem_singleton.mp hd'

theorem note (t : Trace) : MadeUp [.note t] := by
  intro d hd
  cases List.mem_singleton.mp hd

theorem scan (s : Scan) : MadeUp s.entries := by
  intro d hd
  rcases List.mem_append.mp hd with hd | hd
  · obtain ⟨e, -, he⟩ := List.mem_map.mp hd
    cases he
  · cases List.mem_singleton.mp hd

theorem parse (a : Allowance Parser.Opening) (p : Parser) : MadeUp (p.entries a) := by
  intro d hd
  obtain ⟨⟨e, rfl⟩, e', he'⟩ := Parser.exists_error?_of_count hd
  refine ⟨rfl, .ofSyntax e', ?_, rfl⟩
  rw [Parser.diagnostics_entries, he']
  exact List.mem_singleton_self _

theorem countP_eq_zero (h : MadeUp es) (hnone : diagnostics es = []) : es.countP isCount = 0 := by
  refine List.countP_eq_zero.mpr fun e he hcount => ?_
  cases e with
  | report d | note t => cases hcount
  | count d =>
    obtain ⟨-, d', hd', -⟩ := h d he
    rw [hnone] at hd'
    cases hd'

/-- **The flags are those of what is said.** -/
theorem any_source (h : MadeUp es) :
    (counted es).any (!·.isRuntime) = (diagnostics es).any (!·.isRuntime) := by
  rw [Bool.eq_iff_iff, List.any_eq_true, List.any_eq_true]
  constructor
  · rintro ⟨d, hd, hsource⟩
    rcases mem_counted.mp hd with hsaid | hbroken
    · exact ⟨d, hsaid, hsource⟩
    · obtain ⟨-, d', hd', hsource'⟩ := h d hbroken
      exact ⟨d', hd', by rw [hsource']; rfl⟩
  · rintro ⟨d, hd, hsource⟩
    exact ⟨d, mem_counted.mpr (Or.inl hd), hsource⟩

theorem any_runtime (h : MadeUp es) :
    (counted es).any (·.isRuntime) = (diagnostics es).any (·.isRuntime) := by
  rw [Bool.eq_iff_iff, List.any_eq_true, List.any_eq_true]
  constructor
  · rintro ⟨d, hd, hruntime⟩
    rcases mem_counted.mp hd with hsaid | hbroken
    · exact ⟨d, hsaid, hruntime⟩
    · rw [(h d hbroken).1] at hruntime
      cases hruntime
  · rintro ⟨d, hd, hruntime⟩
    exact ⟨d, mem_counted.mpr (Or.inl hd), hruntime⟩

end MadeUp

theorem countP_scan (s : Scan) : s.entries.countP isCount = 0 := by
  rw [Scan.entries, List.countP_append, List.countP_map]
  have hnone : s.errors.countP (isCount ∘ fun e => .report (.ofLexical e)) = 0 :=
    List.countP_eq_zero.mpr fun e _ h => Bool.false_ne_true h
  rw [hnone]
  rfl

end Entry

/-! ### Requests to a script -/

/-- What a request does, apart from the reporter. -/
structure Move (α : Type) where
  answer : α
  script : Script
  entries : List Entry

/-- Whether a move breaks off so many reports, all of which are made up for. -/
structure Move.Breaks {α : Type} (m : Move α) (count : Nat) : Prop where
  madeUp : MadeUp m.entries
  countP : m.entries.countP isCount = count

def Move.turn {σ α : Type} [Sink σ] (m : Move α) (r : Reporter σ) : Script.Turn σ α :=
  ⟨m.answer, m.script, r.enterAll m.entries⟩

namespace Script

def outcome (s : Script) : Scan :=
  s.scanned.getD (.ofSource s.source)

theorem exists_move_scan (s : Script) :
    ∃ m : Move Scan, (∀ {σ : Type} [Sink σ] (r : Reporter σ), s.scan r = m.turn r) ∧
      m.answer = s.outcome ∧ m.Breaks 0 := by
  cases hscanned : s.scanned with
  | some scan =>
    refine ⟨⟨scan, s, []⟩, fun r => ?_, by rw [outcome, hscanned]; rfl, .nil, rfl⟩
    rw [Script.scan, hscanned]
    rfl
  | none =>
    refine ⟨⟨.ofSource s.source, { s with scanned := some (.ofSource s.source) },
      (Scan.ofSource s.source).entries⟩, fun r => ?_, by rw [outcome, hscanned]; rfl, .scan _,
      countP_scan _⟩
    rw [Script.scan, hscanned, Move.turn, ← Scan.reportTo_eq]

/-- **The decision whether there is a tree**: only what the scan and the parse report
themselves is counted. -/
theorem parse_eq {σ : Type} [Sink σ] {limits : Limits} {s : Script} {m : Move Scan}
    {r : Reporter σ} (hparsed : s.parsed = none) (hscan : s.scan r = m.turn r) {p : Parser}
    (hp : p = .ofStream (.ofScan m.answer)) {es : List Entry}
    (hes : es = m.entries ++ p.entries limits.parsing) {tree? : Option Expr}
    (htree : tree? = if 0 < errors es then none else (p.parse limits.parsing).1.toOption) :
    s.parse limits r = Move.turn ⟨tree?, { m.script with parsed := some tree? }, es⟩ r := by
  have hcount : r.errorCount < (r.enterAll es).errorCount ↔ 0 < errors es := by
    rw [Reporter.errorCount_enterAll]
    omega
  have hreporter : (r.enterAll m.entries).enterAll (p.entries limits.parsing) = r.enterAll es := by
    rw [hes, Reporter.enterAll_append]
  rw [Script.parse, hparsed, hscan]
  simp only [Move.turn, ← hp, Parser.parseReporting_eq, hreporter, hcount, ← htree]

/-- Whether a parse of the script breaks a report off: it is the first one, and the tokens are
such. -/
def breaksOff (limits : Limits) (s : Script) : Bool :=
  s.parsed.isNone && Parser.breaksOff limits.parsing (TokenStream.ofScan s.outcome).body

theorem exists_move_parse (limits : Limits) (s : Script) :
    ∃ m : Move (Option Expr), (∀ {σ : Type} [Sink σ] (r : Reporter σ),
      s.parse limits r = m.turn r) ∧ m.Breaks (s.breaksOff limits).toNat := by
  cases hparsed : s.parsed with
  | some tree? =>
    refine ⟨⟨tree?, s, []⟩, fun r => ?_, .nil, by rw [breaksOff, hparsed]; rfl⟩
    rw [Script.parse, hparsed]
    rfl
  | none =>
    obtain ⟨m, hm, hanswer, hmade, hnone⟩ := s.exists_move_scan
    refine ⟨_, fun r => parse_eq hparsed (hm r) rfl rfl rfl, hmade.append (.parse _ _), ?_⟩
    rw [List.countP_append, hnone, Nat.zero_add, Parser.countP_entries, hanswer, breaksOff, hparsed]
    rfl

end Script

def Move.execution (limits : Limits) (m : Move (Option Expr)) : Move (Except Fault Execution) :=
  match m.answer with
  | none => ⟨.ok .rejected, m.script, m.entries⟩
  | some tree =>
    match tree.evaluate limits.evaluating defaultPlaces with
    | .ok value =>
      match value.display m.script.places with
      | .ok output =>
        ⟨.ok (.finished tree value output), m.script,
          m.entries ++ [.note (.evaluated tree.kindName output)]⟩
      | .error f => ⟨.error f, m.script, m.entries⟩
    | .error (.runtime e) => ⟨.ok (.failed tree), m.script, m.entries ++ [.report (.ofRuntime e)]⟩
    | .error (.fault f) => ⟨.error f, m.script, m.entries⟩

theorem Move.Breaks.execution {limits : Limits} {m : Move (Option Expr)} {count : Nat}
    (h : m.Breaks count) : (m.execution limits).Breaks count := by
  rw [Move.execution]
  split
  · exact ⟨h.madeUp, h.countP⟩
  · split
    · split
      · exact ⟨h.madeUp.append (.note _), by rw [List.countP_append, h.countP]; rfl⟩
      · exact ⟨h.madeUp, h.countP⟩
    · exact ⟨h.madeUp.append (.report _), by rw [List.countP_append, h.countP]; rfl⟩
    · exact ⟨h.madeUp, h.countP⟩

namespace Script

theorem execute_eq {σ : Type} [Sink σ] {limits : Limits} {s : Script} {m : Move (Option Expr)}
    {r : Reporter σ} (hparse : s.parse limits r = m.turn r) :
    s.execute limits r = (m.execution limits).turn r := by
  obtain ⟨tree?, script, es⟩ := m
  rw [Script.execute, hparse]
  cases tree? with
  | none => rfl
  | some tree =>
    simp only [Move.turn, Move.execution]
    cases hvalue : tree.evaluate limits.evaluating defaultPlaces with
    | ok value =>
      cases houtput : value.display script.places with
      | ok output =>
        simp only [houtput, Reporter.enterAll_append]
        rfl
      | error f => simp only [houtput]
    | error trouble =>
      cases trouble with
      | runtime e =>
        simp only [Reporter.enterAll_append]
        rfl
      | fault f => rfl

theorem exists_move_execute (limits : Limits) (s : Script) :
    ∃ m : Move (Except Fault Execution), (∀ {σ : Type} [Sink σ] (r : Reporter σ),
      s.execute limits r = m.turn r) ∧ m.Breaks (s.breaksOff limits).toNat := by
  obtain ⟨m, hm, hbreaks⟩ := s.exists_move_parse limits
  exact ⟨m.execution limits, fun r => execute_eq (hm r), hbreaks.execution⟩

theorem exists_move_printTree (limits : Limits) (s : Script) :
    ∃ m : Move (Except Fault (Option String)), (∀ {σ : Type} [Sink σ] (r : Reporter σ),
      s.printTree limits r = m.turn r) ∧ m.Breaks (s.breaksOff limits).toNat := by
  obtain ⟨⟨tree?, script, es⟩, hm, hmade, hcount⟩ := s.exists_move_parse limits
  cases tree? with
  | none =>
    refine ⟨⟨.ok none, script, es⟩, fun r => ?_, hmade, hcount⟩
    rw [Script.printTree, hm]
    rfl
  | some tree =>
    cases hform : tree.prefixForm limits.prefixPrinting with
    | ok text =>
      refine ⟨⟨.ok (some text), script, es⟩, fun r => ?_, hmade, hcount⟩
      rw [Script.printTree, hm]
      simp only [Move.turn, hform]
    | error halt =>
      cases halt with
      | raised f =>
        refine ⟨⟨.error f, script, es⟩, fun r => ?_, hmade, hcount⟩
        rw [Script.printTree, hm]
        simp only [Move.turn, hform]
      | exhausted =>
        obtain ⟨⟨scan, script', es'⟩, hm', -, hmade', hnone⟩ := script.exists_move_scan
        refine ⟨⟨.ok none, script', es ++ es' ++ [.report (.source
          ((TokenStream.ofScan scan).tokenAt 0).line "" SyntaxError.Cause.tooDeep.message)]⟩,
          fun r => ?_, (hmade.append hmade').append (.report _), ?_⟩
        · rw [Script.printTree, hm]
          simp only [Move.turn, hform, hm', Reporter.enterAll_append]
          rfl
        · rw [List.countP_append, List.countP_append, hcount, hnone]
          rfl

end Script

def Session.Step.breaksOff (limits : Limits) (s : Script) : Step → Bool
  | .parse | .execute | .printTree => s.breaksOff limits
  | .runSource source => (Script.ofSource source defaultPlaces).breaksOff limits
  | _ => false

/-- **Every step of a session is a move**: its answer, the script after it and all that
is reported and noted do not depend on the reporter. -/
theorem Session.exists_move_step (limits : Limits) (s : Script) (q : Step) :
    ∃ m : Move (Except Fault Answer), (∀ {σ : Type} [Sink σ] (r : Reporter σ),
      Session.step limits ⟨s, r⟩ q = (m.answer, ⟨m.script, r.enterAll m.entries⟩)) ∧
      m.Breaks (q.breaksOff limits s).toNat := by
  cases q with
  | report d => exact ⟨⟨.ok .nothing, s, [.report d]⟩, fun r => rfl, .report d, rfl⟩
  | start source places =>
    exact ⟨⟨.ok .nothing, .ofSource source places, []⟩, fun r => rfl, .nil, rfl⟩
  | scan =>
    obtain ⟨m, hm, -, hmade, hcount⟩ := s.exists_move_scan
    refine ⟨⟨.ok (.tokens m.answer.tokens), m.script, m.entries⟩, fun r => ?_, hmade, hcount⟩
    rw [Session.step, hm]
    rfl
  | parse =>
    obtain ⟨m, hm, hmade, hcount⟩ := s.exists_move_parse limits
    refine ⟨⟨.ok (.tree m.answer), m.script, m.entries⟩, fun r => ?_, hmade, hcount⟩
    rw [Session.step, hm]
    rfl
  | execute =>
    obtain ⟨m, hm, hmade, hcount⟩ := s.exists_move_execute limits
    refine ⟨⟨m.answer.map .execution, m.script, m.entries⟩, fun r => ?_, hmade, hcount⟩
    rw [Session.step, hm]
    rfl
  | printTree =>
    obtain ⟨m, hm, hmade, hcount⟩ := s.exists_move_printTree limits
    refine ⟨⟨m.answer.map .text, m.script, m.entries⟩, fun r => ?_, hmade, hcount⟩
    rw [Session.step, hm]
    rfl
  | runSource source =>
    obtain ⟨m, hm, hmade, hcount⟩ :=
      (Script.ofSource source defaultPlaces).exists_move_execute limits
    refine ⟨⟨(m.answer.map Execution.output?).map .text, s, m.entries⟩, fun r => ?_, hmade, hcount⟩
    rw [Session.step, LoxCalc.runSource, hm]
    rfl

end LoxCalc
