import LoxCalc.Proofs.Expr.Visits
import LoxCalc.Proofs.Parser.Recovery
import LoxCalc.Proofs.Script.Endings
import LoxCalc.Proofs.Token.Places

/-!
# The lines of tokens and diagnostics

**Every line that is shown is a line of the source.**  Tokens and lexical errors carry the
lines of their segments.  A syntax error carries the line of the token at which the parser
stands, and this is a token of the source or its end.

A runtime error is made by an operator, and the tree holds the operators as the scanner made
them.  So the error of an evaluation that fails at a node carries the operator of this node
(`Fails.token_eq`), which is the token of the source that the node's position names
(`Expr.marks_operatorIndex`).  What a script remembers is the scan and the tree of its own
source, whatever has been asked of it before (`Session.faithful_run`).

* `Script.Faithful.exists_move_execute`: the runtime errors that an execution reports.
* `lines_ofSource`: all lines.
-/

namespace LoxCalc

open Entry

/-! ### The token of a syntax error -/

namespace Parser

theorem token_of_error {a : Allowance Opening} {p : Parser} {e : SyntaxError}
    (h : (p.parse a).1 = .error e) : e.token = (p.parse a).2.current := by
  rw [parse_eq] at h ⊢
  cases hresult : (read a .initial p.rest).result with
  | ok tree =>
    rw [hresult] at h
    cases h
  | error halt =>
    rw [hresult] at h
    cases halt with
    | raised cause | exhausted =>
      cases h
      rfl

theorem diagnostics_of_error {a : Allowance Opening} {p : Parser} {e : SyntaxError}
    (h : (p.parse a).1 = .error e) : diagnostics (p.entries a) = [.ofSyntax e] := by
  rw [diagnostics_entries, error?, h]
  rfl

end Parser

/-! ### The operator of a failing node -/

namespace Expr

variable {places : Int} {a : Allowance Layer} {e n : Expr} {error : RuntimeError}

/-- **A node that fails itself** reports its own operator. -/
theorem Fails.token_eq (h : Fails places a n (.runtime error)) :
    n.operator? = some error.token := by
  have hends : ∀ {op : Token} {x : Outcome}, x = .error (.runtime error) →
      Ends (fun _ : Value => True) (fun t => ∀ err, t = .runtime err → err.token = op)
        (ofOutcome x) → error.token = op := by
    intro op x hx h
    rw [hx] at h
    exact h error rfl
  have hrefused : ∀ {op : Token} {cause : RuntimeError.Cause} (err : RuntimeError),
      Trouble.runtime ⟨op, cause⟩ = .runtime err → err.token = op := by
    intro op cause err herr
    cases herr
    rfl
  cases h with
  | unary hb he ht =>
    rw [operator?, hends ht (ends_applyUnary (fun _ => trivial) (fun _ => trivial)
      hrefused fun _ _ _ => nofun)]
  | binary hb hl hr ht =>
    rw [operator?, hends ht (ends_applyBinary (fun _ => trivial) (fun _ => trivial)
      (fun _ => trivial) trivial (fun _ _ => hrefused) (fun _ _ _ => nofun) (fun _ _ _ => nofun)
      fun _ _ => nofun)]

theorem Shaped.isSymbol {op : Token} (h : n.Shaped) (hop : n.operator? = some op) :
    op.kind.isSymbol = true := by
  cases n with
  | unary op' e =>
    cases hop
    obtain ⟨hkind, -⟩ := h
    rcases hkind with hkind | hkind <;> rw [hkind] <;> rfl
  | binary l op' r =>
    cases hop
    obtain ⟨n, hlevel, -⟩ := shaped_binary_iff.mp h
    exact isSymbol_of_level? hlevel
  | _ => cases hop

theorem exists_failsAt_of_evaluate (h : e.evaluate a places = .error (.runtime error))
    (hdeep : error.cause ≠ .tooDeep) :
    ∃ p n, FailsAt places a e p (.runtime error) ∧ e.at? p = some n ∧
      n.operator? = some error.token := by
  have heval : e.eval places a = .error (.raised (.runtime error)) := by
    rw [evaluate] at h
    cases hresult : e.eval places a with
    | ok v => simp [hresult] at h
    | error halt =>
      cases halt with
      | raised t => simpa [hresult] using h
      | exhausted =>
        obtain rfl : ⟨e.anchor, .tooDeep⟩ = error := by simpa [hresult] using h
        exact absurd rfl hdeep
  obtain ⟨p, b, n, hreaches, hfails⟩ := exists_failsAt_iff.mpr heval
  exact ⟨p, n, ⟨b, n, hreaches, hfails⟩, hreaches.at?, hfails.token_eq⟩

end Expr

/-! ### Runtime errors of a source -/

/-- Whether a runtime error is that of an operator of the source: the evaluation of its tree
fails at a node whose operator is read in the source behind the text `before`. -/
def AtOperator (limits : Limits) (source : List Char) (tree : Expr) (e : RuntimeError)
    (before : List Char) : Prop :=
  ∃ p n, Expr.FailsAt defaultPlaces limits.evaluating tree p (.runtime e) ∧
    tree.at? p = some n ∧ n.operator? = some e.token ∧
    TokenAt source (tree.operatorIndex p n) e.token before

theorem Scan.reading_of_tree? {limits : Limits} {source : Source} {tree : Expr}
    (h : (Scan.ofSource source).tree? limits = some tree) :
    tree.marks = (Scan.ofSource source).body.map Token.mark ∧ tree.Shaped := by
  rw [Scan.tree?] at h
  cases hparse : ((Parser.ofStream (.ofScan (Scan.ofSource source))).parse limits.parsing).1 with
  | ok tree' =>
    obtain rfl : tree' = tree := by simpa [hparse, Except.toOption] using h
    have hreading := Parser.reading_of_parse (Scan.literalTyped_ofSource source) hparse
    rwa [body_ofScan_ofSource] at hreading
  | error err => simp [hparse, Except.toOption] at h

/-- **The operator of a node** is the token of the source that the node's position names. -/
theorem Scan.exists_operatorAt {limits : Limits} {source : Source} {tree n : Expr}
    (htree : (Scan.ofSource source).tree? limits = some tree) {p : Expr.Position} {op : Token}
    (hat : tree.at? p = some n) (hop : n.operator? = some op) :
    ∃ before, TokenAt source.characters (tree.operatorIndex p n) op before ∧
      op.line = lineAfter before := by
  obtain ⟨hmarks, hshaped⟩ := Scan.reading_of_tree? htree
  have hmark := Expr.marks_operatorIndex hat hop
  rw [hmarks, List.getElem?_map] at hmark
  obtain ⟨t, ht, htoken⟩ := Option.map_eq_some_iff.mp hmark
  obtain rfl := Token.eq_of_mark_operator htoken
  obtain ⟨before, htokenAt, hline⟩ := Scan.exists_tokenAt ht
  refine ⟨before, htokenAt, ?_⟩
  rw [hline, htokenAt.lineAfter_eq ((hshaped.of_at? hat).isSymbol hop)]

theorem exists_atOperator {limits : Limits} {source : Source} {tree : Expr} {e : RuntimeError}
    (htree : (Scan.ofSource source).tree? limits = some tree)
    (h : tree.evaluate limits.evaluating defaultPlaces = .error (.runtime e))
    (hdeep : e.cause ≠ .tooDeep) :
    ∃ before, AtOperator limits source.characters tree e before ∧ e.line = lineAfter before := by
  obtain ⟨p, n, hfails, hat, hop⟩ := Expr.exists_failsAt_of_evaluate h hdeep
  obtain ⟨before, htokenAt, hline⟩ := Scan.exists_operatorAt htree hat hop
  exact ⟨before, ⟨p, n, hfails, hat, hop, htokenAt⟩, hline⟩

/-! ### What an execution adds to a parse -/

namespace Move

variable {limits : Limits} {m : Move (Option Expr)}

theorem execution_script : (m.execution limits).script = m.script := by
  rw [Move.execution]
  split
  · rfl
  · split
    · split <;> rfl
    · rfl
    · rfl

/-- An execution reports what the parse does, and at most the runtime error of the tree. -/
theorem mem_diagnostics_execution {d : Diagnostic}
    (h : d ∈ diagnostics (m.execution limits).entries) :
    d ∈ diagnostics m.entries ∨
      ∃ tree e, m.answer = some tree ∧
        tree.evaluate limits.evaluating defaultPlaces = .error (.runtime e) ∧
        d = .ofRuntime e := by
  rw [Move.execution] at h
  split at h
  · exact Or.inl h
  · rename_i tree hanswer
    split at h
    · split at h
      · rw [diagnostics_append, diagnostics_note, List.append_nil] at h
        exact Or.inl h
      · exact Or.inl h
    · rename_i e hvalue
      rw [diagnostics_append, diagnostics_report, List.mem_append, List.mem_singleton] at h
      exact h.imp_right fun heq => ⟨tree, e, hanswer, hvalue, heq⟩
    · exact Or.inl h

end Move

/-! ### What scripts remember -/

namespace Script

/-- Whether what a script remembers belongs to its source. -/
structure Faithful (limits : Limits) (s : Script) : Prop where
  scanned : ∀ scan, s.scanned = some scan → scan = .ofSource s.source
  parsed : ∀ tree, s.parsed = some (some tree) →
    (Scan.ofSource s.source).tree? limits = some tree

theorem faithful_ofSource (limits : Limits) (source : Source) (places : Places) :
    (ofSource source places).Faithful limits :=
  ⟨nofun, nofun⟩

variable {limits : Limits} {s : Script}

def NoRuntime (es : List Entry) : Prop :=
  ∀ line message, Diagnostic.runtime line message ∉ diagnostics es

theorem NoRuntime.append {es es' : List Entry} (h : NoRuntime es) (h' : NoRuntime es') :
    NoRuntime (es ++ es') := by
  intro line message hmem
  rw [diagnostics_append, List.mem_append] at hmem
  exact hmem.elim (h line message) (h' line message)

theorem noRuntime_scan (scan : Scan) : NoRuntime scan.entries := by
  intro line message hmem
  rw [Scan.diagnostics_entries] at hmem
  obtain ⟨e, -, he⟩ := List.mem_map.mp hmem
  cases he

theorem noRuntime_parse (a : Allowance Parser.Opening) (p : Parser) :
    NoRuntime (p.entries a) := by
  intro line message hmem
  rw [Parser.diagnostics_entries] at hmem
  obtain ⟨e, -, he⟩ := List.mem_map.mp hmem
  cases he

namespace Faithful

theorem exists_move_scan (h : s.Faithful limits) :
    ∃ m : Move Scan, (∀ {σ : Type} [Sink σ] (r : Reporter σ), s.scan r = m.turn r) ∧
      m.answer = .ofSource s.source ∧ m.script.source = s.source ∧
      m.script.Faithful limits ∧ NoRuntime m.entries := by
  cases hscanned : s.scanned with
  | some scan =>
    refine ⟨⟨scan, s, []⟩, fun r => ?_, h.scanned scan hscanned, rfl, h, fun _ _ => nofun⟩
    rw [Script.scan, hscanned]
    rfl
  | none =>
    refine ⟨⟨.ofSource s.source, { s with scanned := some (.ofSource s.source) },
      (Scan.ofSource s.source).entries⟩, fun r => ?_, rfl, rfl, ⟨fun scan hscan => ?_, h.parsed⟩,
      noRuntime_scan _⟩
    · rw [Script.scan, hscanned, Move.turn, ← Scan.reportTo_eq]
    · exact (Option.some.inj hscan).symm

/-- **A parse of a faithful script** gives the tree of its source, or none. -/
theorem exists_move_parse (h : s.Faithful limits) :
    ∃ m : Move (Option Expr), (∀ {σ : Type} [Sink σ] (r : Reporter σ),
        s.parse limits r = m.turn r) ∧
      (∀ tree, m.answer = some tree → (Scan.ofSource s.source).tree? limits = some tree) ∧
      m.script.Faithful limits ∧ NoRuntime m.entries := by
  cases hparsed : s.parsed with
  | some tree? =>
    refine ⟨⟨tree?, s, []⟩, fun r => ?_, fun tree htree => ?_, h, fun _ _ => nofun⟩
    · rw [Script.parse, hparsed]
      rfl
    · exact h.parsed tree (hparsed.trans (congrArg some htree))
  | none =>
    obtain ⟨m, hm, hanswer, hsource, hfaithful, hentries⟩ := h.exists_move_scan
    obtain ⟨p, hp⟩ : ∃ p, p = Parser.ofStream (.ofScan m.answer) := ⟨_, rfl⟩
    obtain ⟨es, hes⟩ : ∃ es, es = m.entries ++ p.entries limits.parsing := ⟨_, rfl⟩
    obtain ⟨tree?, htree?⟩ : ∃ tree?, tree? = if 0 < errors es then none else
      (p.parse limits.parsing).1.toOption := ⟨_, rfl⟩
    have htree : ∀ tree, tree? = some tree →
        (Scan.ofSource s.source).tree? limits = some tree := by
      intro tree hsome
      rw [htree?] at hsome
      by_cases herrors : 0 < errors es
      · rw [if_pos herrors] at hsome
        cases hsome
      · rw [if_neg herrors, hp, hanswer] at hsome
        exact hsome
    refine ⟨_, fun r => parse_eq hparsed (hm r) hp hes htree?, htree, ⟨?_, ?_⟩, ?_⟩
    · exact hfaithful.scanned
    · intro tree hsome
      dsimp only at hsome ⊢
      rw [hsource]
      exact htree tree (Option.some.inj hsome)
    · dsimp only
      rw [hes]
      exact hentries.append (noRuntime_parse _ _)

/-- **The runtime errors that an execution reports** are those of operators of the source,
on the lines of these operators; but one that is reported for the depth of the tree. -/
theorem exists_move_execute (h : s.Faithful limits) :
    ∃ m : Move (Except Fault Execution), (∀ {σ : Type} [Sink σ] (r : Reporter σ),
        s.execute limits r = m.turn r) ∧
      m.script.Faithful limits ∧
      ∀ (line : Int) (message : String), .runtime line message ∈ diagnostics m.entries →
        message ≠ RuntimeError.Cause.tooDeep.message →
        ∃ tree e before, (Scan.ofSource s.source).tree? limits = some tree ∧
          AtOperator limits s.source.characters tree e before ∧ message = e.message ∧
          line = lineAfter before := by
  obtain ⟨m, hm, htree, hfaithful, hentries⟩ := h.exists_move_parse
  refine ⟨m.execution limits, fun r => execute_eq (hm r), ?_, fun line message hmem hmessage => ?_⟩
  · rw [Move.execution_script]
    exact hfaithful
  · rcases Move.mem_diagnostics_execution hmem with hmem | ⟨tree, e, hanswer, hvalue, he⟩
    · exact absurd hmem (hentries line message)
    · obtain ⟨hline, hmessage'⟩ : line = e.line ∧ message = e.message := by
        simpa [Diagnostic.ofRuntime] using he
      have hdeep : e.cause ≠ .tooDeep := by
        intro hcause
        rw [hmessage', RuntimeError.message, hcause] at hmessage
        exact hmessage rfl
      obtain ⟨before, hat, hline'⟩ := exists_atOperator (htree tree hanswer) hvalue hdeep
      exact ⟨tree, e, before, htree tree hanswer, hat, hmessage', hline.trans hline'⟩

theorem printTree (h : s.Faithful limits) {σ : Type} [Sink σ] (r : Reporter σ) :
    (s.printTree limits r).script.Faithful limits := by
  obtain ⟨⟨tree?, script, es⟩, hm, -, hfaithful, -⟩ := h.exists_move_parse
  rw [Script.printTree, hm]
  cases tree? with
  | none => exact hfaithful
  | some tree =>
    dsimp only [Move.turn]
    cases hform : tree.prefixForm limits.prefixPrinting with
    | ok text => exact hfaithful
    | error halt =>
      cases halt with
      | raised f => exact hfaithful
      | exhausted =>
        obtain ⟨m, hm', -, -, hscanned, -⟩ := hfaithful.exists_move_scan
        dsimp only
        rw [hm']
        exact hscanned

end Faithful

end Script

namespace Session

variable {σ : Type} [Sink σ] {limits : Limits}

/-- **Every script stays faithful**, whatever a session does. -/
theorem faithful_step {s : Session σ} (hs : s.script.Faithful limits) (q : Step) :
    (s.step limits q).2.script.Faithful limits := by
  cases q with
  | report d => exact hs
  | start source places => exact Script.faithful_ofSource limits source places
  | scan =>
    obtain ⟨m, hm, -, -, hfaithful, -⟩ := hs.exists_move_scan
    rw [Session.step, hm]
    exact hfaithful
  | parse =>
    obtain ⟨m, hm, -, hfaithful, -⟩ := hs.exists_move_parse
    rw [Session.step, hm]
    exact hfaithful
  | execute =>
    obtain ⟨m, hm, hfaithful, -⟩ := hs.exists_move_execute
    rw [Session.step, hm]
    exact hfaithful
  | printTree => exact hs.printTree s.reporter
  | runSource source => exact hs

theorem faithful_run (steps : List Step) : ∀ {s : Session σ}, s.script.Faithful limits →
    ∀ turn ∈ run limits s steps, turn.2.script.Faithful limits := by
  induction steps with
  | nil => exact fun _ turn hturn => absurd hturn List.not_mem_nil
  | cons q steps ih =>
    intro s hs turn hturn
    have hnext := faithful_step hs q
    rw [run] at hturn
    rcases List.mem_cons.mp hturn with rfl | hturn
    · exact hnext
    · exact ih hnext turn hturn

end Session

/-- **All lines are those of the source.**  A token carries the line on which its text ends, and
the end of input the last line, also if the source is scanned several times over.  A string
that is not closed is reported on the last line and an unexpected character on its own.  The
error of a parse, from wherever the parser stands, is reported on the line of the token at
which it stops.  And what a script of any session reports as a runtime error when it is
executed, if it is not for depth, is the error of a node of the tree of its source, on the
line where the operator of this node stands. -/
theorem lines_ofSource (limits : Limits) (source : Source) :
    (∀ k t, (Scan.ofSource source).body[k]? = some t →
      ∃ before, TokenAt source.characters k t before ∧
        t.line = lineAfter (before ++ t.lexeme.toList)) ∧
    (∀ times, (Scan.ofSource source).tokensAfter times = (Scan.ofSource source).body ++
      List.replicate times (.endOfInput (lineAfter source.characters))) ∧
    (∀ k e, (Scan.ofSource source).errors[k]? = some e →
      ∃ before, ErrorAt source.characters k e.cause before ∧
        (e.cause = .unterminatedString → e.line = lineAfter source.characters) ∧
        (e.cause = .unexpectedCharacter → e.line = lineAfter before)) ∧
    (∀ p : Parser, p.stream = .ofScan (Scan.ofSource source) →
      p.position ≤ (Scan.ofSource source).body.length → ∀ a e, (p.parse a).1 = .error e →
        (Scan.ofSource source).tokens[(p.parse a).2.position]? = some e.token ∧
        ∃ es, (∀ {σ : Type} [Sink σ] (r : Reporter σ), p.parseReporting a r =
            (none, (p.parse a).2, r.enterAll es)) ∧
          diagnostics es =
            [.source e.token.line (Diagnostic.placeOf e.token) e.cause.message]) ∧
    ∀ {σ : Type} [Sink σ] (sink : σ) (steps : List Session.Step),
      ∀ turn ∈ Session.run limits (.fresh sink) steps, turn.2.script.source = source →
        ∃ es, (∀ {τ : Type} [Sink τ] (r : Reporter τ),
            (turn.2.script.execute limits r).reporter = r.enterAll es) ∧
          ∀ (line : Int) (message : String), .runtime line message ∈ diagnostics es →
            message ≠ RuntimeError.Cause.tooDeep.message →
            ∃ tree e before, (Scan.ofSource source).tree? limits = some tree ∧
              AtOperator limits source.characters tree e before ∧ message = e.message ∧
              line = lineAfter before := by
  refine ⟨fun k t ht => Scan.exists_tokenAt ht, fun times => ?_,
    fun k e he => Scan.exists_errorAt he, fun p hstream hposition a e he => ⟨?_, ?_⟩,
    fun sink steps turn hturn hsource => ?_⟩
  · rw [← Scan.lastLine_ofSource]
    rfl
  · have hstanding : Parser.Standing (Scan.ofSource source).tokens p := by
      refine ⟨by rw [hstream]; rfl, ?_⟩
      rw [hstream, Scan.body_ofScan_ofSource]
      exact hposition
    rw [Parser.token_of_error he]
    exact (hstanding.parse a).1.getElem? (Nat.le_refl _)
  · refine ⟨p.entries a, fun r => ?_, Parser.diagnostics_of_error he⟩
    rw [Parser.parseReporting_eq, he]
    rfl
  · have hstart : (Session.fresh sink).script.Faithful limits :=
      Script.faithful_ofSource limits _ _
    have hfaithful := Session.faithful_run steps hstart turn hturn
    obtain ⟨m, hm, -, hruntime⟩ := hfaithful.exists_move_execute
    rw [hsource] at hruntime
    refine ⟨m.entries, fun r => ?_, hruntime⟩
    rw [hm]
    rfl

end LoxCalc
