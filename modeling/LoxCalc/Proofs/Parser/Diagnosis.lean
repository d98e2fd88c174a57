import LoxCalc.Proofs.Parser.Viability
import LoxCalc.Reporting

/-!
# What a parse reports

A parse that fails makes one report, at the first token where the input goes
wrong: what is before the token is the beginning of a sentence, and with the token
it no longer is.  The message can be read off the tokens before it.  Where an
operand is missing it says so, and everywhere else it names what is still open,
the innermost first: **brackets alone decide**, since operators and branches wait
for nothing but an operand.

* `pending_eq_stillOpen`: what an outline leaves open are the brackets without a
  partner.
* `parse_stops`: the phase in which a parse stops, and the error it makes of it.
* `parseReporting_diagnosis`: the whole account.
-/

namespace LoxCalc

/-! ### Brackets without a partner -/

def Kind.endsOperand : Kind → Bool
  | .number | .string | .trueWord | .falseWord | .nilWord | .rightParen => true
  | _ => false

/-- What is open after a token: a parenthesis and a question mark open something,
and their partners close what was opened last. -/
def Bracket.track (opened : List Bracket) : Kind → List Bracket
  | .leftParen => .paren :: opened
  | .question => .question :: opened
  | .rightParen | .colon => opened.tail
  | _ => opened

/-- The brackets without a partner, the innermost first. -/
def Bracket.stillOpen (ks : List Kind) : List Bracket :=
  ks.foldl track []

/-- What is missing after tokens that the next token does not go on with. -/
def SyntaxError.Cause.after (ks : List Kind) : SyntaxError.Cause :=
  if (ks.getLast?.map Kind.endsOperand).getD false then
    match Bracket.stillOpen ks with
    | .paren :: _ => .expectRightParen
    | .question :: _ => .expectColon
    | [] => .expectEnd
  else .expectExpression

theorem SyntaxError.Cause.after_ne_tooDeep (ks : List Kind) : after ks ≠ .tooDeep := by
  unfold after
  split
  · split <;> simp
  · simp

namespace Outline

/-- **An outline after a token** is fixed by what was open and the kind of the token. -/
theorem eq_of_step? {o next : Outline} {k : Kind} (h : o.step? k = some next) :
    next = ⟨!k.endsOperand, Bracket.track o.pending k⟩ := by
  obtain ⟨expects, w⟩ := o
  cases expects with
  | true => cases k <;> simp [step?] at h <;> exact h.symm
  | false =>
    cases w with
    | nil => cases k <;> simp [step?, Kind.level?] at h <;> exact h.symm
    | cons b w =>
      cases b with
      | paren => cases k <;> simp [step?, Kind.level?] at h <;> exact h.symm
      | question => cases k <;> simp [step?, Kind.level?] at h <;> exact h.symm

theorem eq_of_run? {ks : List Kind} : ∀ {o next : Outline}, o.run? ks = some next →
    next = ⟨(ks.getLast?.map fun k => !k.endsOperand).getD o.expectsOperand,
      ks.foldl Bracket.track o.pending⟩ := by
  induction ks with
  | nil =>
    intro o next h
    exact (Option.some.inj h).symm
  | cons k ks ih =>
    intro o next h
    rw [run?] at h
    obtain ⟨mid, hmid, hrest⟩ := Option.bind_eq_some_iff.mp h
    obtain rfl := eq_of_step? hmid
    rw [ih hrest, List.foldl_cons]
    cases ks with
    | nil => rfl
    | cons k' ks => rw [List.getLast?_cons_cons, List.getLast?_eq_some_getLast (by simp)]; rfl

/-- **What an outline misses**, by the tokens it is the outline of. -/
theorem cause_of_run? {ks : List Kind} {o : Outline} (h : initial.run? ks = some o) :
    o.cause = SyntaxError.Cause.after ks := by
  obtain rfl := eq_of_run? h
  rw [SyntaxError.Cause.after]
  cases hlast : ks.getLast? with
  | none => rfl
  | some k =>
    cases hk : k.endsOperand with
    | false => simp [hk, cause]
    | true =>
      simp only [Option.map_some, hk, Bool.not_true, Option.getD_some, if_true]
      rw [Bracket.stillOpen]
      show cause ⟨false, ks.foldl Bracket.track []⟩ = _
      cases ks.foldl Bracket.track [] with
      | nil => rfl
      | cons b w => cases b <;> rfl

end Outline

namespace Parser

variable {a : Allowance Opening}

/-- What a parse comes to if its walk has found the phase `q` at the position `k`: the tree that
is finished there, or the error that is reported there. -/
inductive Stopped (a : Allowance Opening) (s : TokenStream) (k : Nat) (q : Phase) : Prop
  | finished (e : Expr) (at_end : k = s.body.length) (finish : q.finish = .ok e)
      (parse : (ofStream s).parse a = (.ok e, (ofStream s).advance k))
      (entries : (ofStream s).entries a = [.note (.parsed s.tokens.length)])
  | refused (cause : SyntaxError.Cause)
      (stops : (k = s.body.length ∧ q.finish = .error cause) ∨
        ∃ t, s.body[k]? = some t ∧ q.step t = .error cause)
      (parse : (ofStream s).parse a =
        (.error ⟨cause, s.tokenAt k⟩, (ofStream s).advance k))
      (entries : (ofStream s).entries a =
        [.report (.ofSyntax ⟨cause, s.tokenAt k⟩), .note .abandoned])

/-- **Where a parse stops.**  The tokens before the stop lead to a phase; either it
is finished at the end of input, or it refuses the token at the stop. -/
theorem parse_stops {s : TokenStream} (h : a.covers (nestingWithReport a.cost s.body) = true) :
    ∃ k q, k ≤ s.body.length ∧ Phase.initial.run (s.body.take k) = .ok q ∧ Stopped a s k q := by
  obtain ⟨hle, q, stop, hrun, hresult, hend⟩ := read_stops (p := .initial) (covers_peak h)
  have hne := (read_of_covers (p := .initial) h).1
  have hrest : (ofStream s).rest = s.body := rfl
  have hcurrent : ((ofStream s).advance (read a .initial s.body).count).current =
      s.tokenAt (read a .initial s.body).count := by
    rw [current, advance, ofStream, Nat.zero_add]
  refine ⟨_, q, hle, hrun, ?_⟩
  cases stop with
  | ok e =>
    have hread : (read a .initial s.body).result = .ok e := hresult
    rcases hend with ⟨_, _, _, _, hstop⟩ | ⟨hlen, hstop⟩
    · cases hstop
    · refine .finished e hlen hstop.symm ?_ ?_
      · rw [parse_eq, hrest, hread]
        rfl
      · rw [Parser.entries, Reading.entries, hrest, hread]
        rfl
  | error cause =>
    have hread : (read a .initial s.body).result = .error (.raised cause) := by
      rw [stopAt] at hresult
      split at hresult
      · exact hresult
      · exact absurd hresult hne
    refine .refused cause ?_ ?_ ?_
    · rcases hend with ⟨t, cause, ht, hrefused, hstop⟩ | ⟨hlen, hstop⟩
      · cases hstop
        exact Or.inr ⟨t, ht, hrefused⟩
      · exact Or.inl ⟨hlen, hstop.symm⟩
    · rw [parse_eq, hrest, hread, hcurrent]
      rfl
    · rw [Parser.entries, Reading.entries, hrest, hread, hcurrent]
      rfl

/-! ### The report -/

/-- **The first token where the input goes wrong.**  What is before it is the
beginning of a sentence, but neither a sentence if the input ends there nor the
beginning of one together with the token. -/
structure WrongAt (tokens : List Token) (k : Nat) (bad : Token) : Prop where
  getElem? : tokens[k]? = some bad
  viable : Viable ((tokens.take k).map Token.kind)
  not_sentence : bad.kind = .eof → ¬ Sentence ((tokens.take k).map Token.kind)
  not_viable : bad.kind ≠ .eof → ¬ Viable ((tokens.take (k + 1)).map Token.kind)

theorem WrongAt.of_refused {tokens : List Token} {k : Nat} {bad : Token} {q : Phase}
    {cause : SyntaxError.Cause} (hbad : tokens[k]? = some bad) (hne : bad.kind ≠ .eof)
    (hrun : Phase.initial.run (tokens.take k) = .ok q) (hrefused : q.step bad = .error cause) :
    WrongAt tokens k bad where
  getElem? := hbad
  viable := viable_iff.mpr ⟨_, Phase.outline_of_run hrun⟩
  not_sentence h := absurd h hne
  not_viable _ hviable := by
    obtain ⟨o, ho⟩ := hviable.run
    have hrunout : Outline.initial.run? ((tokens.take k).map Token.kind) = some q.outline :=
      Phase.outline_of_run hrun
    rw [List.take_add_one, hbad, Option.toList_some, List.map_append, List.map_singleton,
      Outline.run?_append_of hrunout, Outline.run?, Phase.outline_of_refused hrefused] at ho
    cases ho

theorem WrongAt.of_unfinished {tokens : List Token} {k : Nat} {bad : Token} {q : Phase}
    {cause : SyntaxError.Cause} (hbad : tokens[k]? = some bad) (heof : bad.kind = .eof)
    (hrun : Phase.initial.run (tokens.take k) = .ok q) (hfinish : q.finish = .error cause) :
    WrongAt tokens k bad where
  getElem? := hbad
  viable := viable_iff.mpr ⟨_, Phase.outline_of_run hrun⟩
  not_viable h := absurd heof h
  not_sentence _ hsentence := by
    have hrunout : Outline.initial.run? ((tokens.take k).map Token.kind) = some q.outline :=
      Phase.outline_of_run hrun
    rw [hsentence.run] at hrunout
    rcases q.finish_cases with ⟨-, e, he⟩ | ⟨hne, -⟩
    · rw [he] at hfinish
      cases hfinish
    · exact hne (Option.some.inj hrunout).symm

theorem cause_eq_after {ts : List Token} {q : Phase} {cause : SyntaxError.Cause}
    (hrun : Phase.initial.run ts = .ok q)
    (hstop : q.finish = .error cause ∨ ∃ t, q.step t = .error cause) :
    cause = .after (ts.map Token.kind) := by
  rw [← Outline.cause_of_run? (Phase.outline_of_run hrun)]
  rcases hstop with hfinish | ⟨t, hrefused⟩
  · rcases q.finish_cases with ⟨-, e, he⟩ | ⟨-, he⟩
    · rw [he] at hfinish
      cases hfinish
    · exact Except.error.inj (hfinish.symm.trans he)
  · exact Phase.cause_of_refused hrefused

theorem sentence_of_finish {ts : List Token} {q : Phase} {e : Expr}
    (hrun : Phase.initial.run ts = .ok q) (hfinish : q.finish = .ok e) :
    Sentence (ts.map Token.kind) := by
  have hrunout : Outline.initial.run? (ts.map Token.kind) = some q.outline :=
    Phase.outline_of_run hrun
  rcases q.finish_cases with ⟨hcomplete, -⟩ | ⟨-, he⟩
  · rw [sentence_iff, hrunout, hcomplete]
  · rw [he] at hfinish
    cases hfinish

variable {σ : Type} [Sink σ]

/-- The outcome that a parse of `tokens` owes to the reporter `r`.  With a tree it
reports nothing.  Without one it makes exactly one report: this is about the first
token where the input goes wrong, at which the parser then stands, and its cause is
what the tokens before it leave open. -/
def Diagnosed (tokens : List Token) (r : Reporter σ) : Option Expr × Parser × Reporter σ → Prop
  | (some _, _, after) =>
    Sentence ((tokens.takeWhile (·.kind ≠ .eof)).map Token.kind) ∧
      after = r.note (.parsed tokens.length)
  | (none, p, after) =>
    ∃ bad, WrongAt tokens p.position bad ∧
      after = (r.report (.ofSyntax
        ⟨.after ((tokens.take p.position).map Token.kind), bad⟩)).note .abandoned ∧
      after.errorCount = r.errorCount + 1 ∧ after.hadRuntimeError = r.hadRuntimeError

/-- **What a parse reports**, for all tokens that are not nested too deeply to be read and to be
reported on. -/
theorem parseReporting_diagnosis {tokens : List Token}
    (hend : tokens.getLast?.map Token.kind = some .eof)
    (hnest : a.covers (nestingWithReport a.cost (tokens.takeWhile (·.kind ≠ .eof))) = true)
    (r : Reporter σ) :
    ∃ s, TokenStream.ofTokens? tokens = some s ∧
      Diagnosed tokens r ((ofStream s).parseReporting a r) := by
  obtain ⟨s, hs, hbody, hstop, behind, hsplit⟩ := TokenStream.ofTokens?_of_getLast? hend
  refine ⟨s, hs, ?_⟩
  rw [← hbody] at hnest
  obtain ⟨k, q, hk, hrun, hstopped⟩ := parse_stops hnest
  have htokens := TokenStream.ofTokens?_eq_some hs
  have htake : tokens.take k = s.body.take k := by
    rw [hsplit, List.take_append_of_le_length hk]
  rw [parseReporting_eq]
  cases hstopped with
  | finished e hlen hfinish hparse hentries =>
    rw [hparse, hentries, htokens]
    rw [hlen, List.take_length] at hrun
    exact ⟨hbody ▸ sentence_of_finish hrun hfinish, rfl⟩
  | refused cause hstops hparse hentries =>
    have hcause : cause = .after ((tokens.take k).map Token.kind) := by
      rw [htake]
      exact cause_eq_after hrun (hstops.imp And.right fun ⟨t, _, h⟩ => ⟨t, h⟩)
    have hbad : tokens[k]? = some (s.tokenAt k) := by
      rw [← htokens]
      exact s.getElem?_tokens (Nat.lt_of_le_of_lt hk s.length_body_lt)
    have hwrong : WrongAt tokens k (s.tokenAt k) := by
      rw [← htake] at hrun
      rcases hstops with ⟨rfl, hfinish⟩ | ⟨t, ht, hrefused⟩
      · exact .of_unfinished hbad s.stop_kind hrun hfinish
      · rw [TokenStream.tokenAt_body ht] at hbad ⊢
        exact .of_refused hbad (TokenStream.kind_of_mem_body (List.mem_of_getElem? ht)) hrun hrefused
    have hposition : ((ofStream s).advance k).position = k := Nat.zero_add k
    rw [hparse, hentries]
    refine ⟨s.tokenAt k, by rw [hposition]; exact hwrong, ?_, rfl, rfl⟩
    rw [hposition, hcause]
    rfl

def unfinishedCondition : List Token :=
  [.operator .leftParen 1, .operator .trueWord 1, .operator .question 1, .operator .nilWord 2,
    .operator .rightParen 2, .endOfInput 3]

theorem parseReporting_unfinishedCondition :
    unfinishedCondition.getLast?.map Token.kind = some .eof ∧
      Limits.standard.parsing.covers
          (nestingWithReport Limits.standard.parsing.cost
            (unfinishedCondition.takeWhile (·.kind ≠ .eof))) = true ∧
      ∃ s, TokenStream.ofTokens? unfinishedCondition = some s ∧
        Diagnosed unfinishedCondition (.fresh (Collected.mk #[]))
          ((ofStream s).parseReporting Limits.standard.parsing (.fresh (Collected.mk #[]))) := by
  have hend : unfinishedCondition.getLast?.map Token.kind = some .eof := by decide
  have hnest : Limits.standard.parsing.covers
      (nestingWithReport Limits.standard.parsing.cost
        (unfinishedCondition.takeWhile (·.kind ≠ .eof))) = true := by decide
  exact ⟨hend, hnest, parseReporting_diagnosis hend hnest (.fresh (Collected.mk #[]))⟩

/-- The message names the question mark, which is inside the parenthesis. -/
example : SyntaxError.Cause.after ((unfinishedCondition.take 4).map Token.kind) =
    .expectColon := by decide

end Parser

end LoxCalc
