import LoxCalc.Proofs.Expr.Lines
import LoxCalc.Proofs.Parser.Reading

/-!
# Parsing without lines

A parser looks at the kinds of tokens, and it keeps tokens as operators and their values as
literals.  It never looks at a line.  So if the lines are taken off what it reads, each step
gives what it gave before, without the lines (`Phase.step_unlined`), and so does a whole parse:
**the tree or the error is the same up to lines, and the parser stops at the same position**
(`parse_unlined`).
-/

namespace LoxCalc

def SyntaxError.unlined (e : SyntaxError) : SyntaxError :=
  { e with token := e.token.unlined }

namespace TokenStream

def unlined (s : TokenStream) : TokenStream where
  tokens := s.tokens.map Token.unlined
  closed := by
    rw [List.getLast?_map, Option.map_map]
    exact s.closed

theorem last_unlined (s : TokenStream) : s.unlined.last = s.last.unlined :=
  List.getLast_map _

theorem tokenAt_unlined (s : TokenStream) (position : Nat) :
    s.unlined.tokenAt position = (s.tokenAt position).unlined := by
  rw [tokenAt, tokenAt, List.getD_eq_getElem?_getD, List.getD_eq_getElem?_getD, last_unlined,
    unlined, List.getElem?_map]
  cases s.tokens[position]? <;> rfl

end TokenStream

namespace Parser

def unlined (p : Parser) : Parser :=
  ⟨p.stream.unlined, p.position⟩

def unlinedOutcome (outcome : Except SyntaxError Expr) : Except SyntaxError Expr :=
  (outcome.map Expr.unlined).mapError SyntaxError.unlined

/-! ### Frames -/

def Frame.unlined : Frame → Frame
  | .group => .group
  | .sign op => .sign op.unlined
  | .infixed level left op => .infixed level left.unlined op.unlined
  | .thenBranch condition => .thenBranch condition.unlined
  | .elseBranch condition branch => .elseBranch condition.unlined branch.unlined

theorem depth_unlined (cost : Opening → Nat) (stack : List Frame) :
    depth cost (stack.map Frame.unlined) = depth cost stack := by
  induction stack with
  | nil => rfl
  | cons frame stack ih =>
    have hframe : frame.unlined.cost cost = frame.cost cost := by
      cases frame <;> rfl
    rw [List.map_cons, depth, depth, hframe, ih]

theorem fold_unlined (level : Nat) (stack : List Frame) (e : Expr) :
    fold level (stack.map Frame.unlined) e.unlined =
      ((fold level stack e).1.map Frame.unlined, (fold level stack e).2.unlined) := by
  fun_induction fold level stack e with
  | case1 op stack e ih => exact ih
  | case2 l left op stack e h ih =>
    rw [List.map_cons, Frame.unlined, fold, if_pos h]
    exact ih
  | case3 l left op stack e h =>
    rw [List.map_cons, Frame.unlined, fold, if_neg h]
  | case4 stack e hsign hinfixed =>
    cases stack with
    | nil => rfl
    | cons frame stack =>
      cases frame with
      | sign op => exact (hsign op stack rfl).elim
      | infixed l left op => exact (hinfixed l left op stack rfl).elim
      | group | thenBranch _ | elseBranch _ _ => rfl

theorem close_unlined (stack : List Frame) (e : Expr) :
    close (stack.map Frame.unlined) e.unlined =
      ((close stack e).1.map Frame.unlined, (close stack e).2.unlined) := by
  fun_induction close stack e with
  | case1 op stack e ih => exact ih
  | case2 l left op stack e ih => exact ih
  | case3 condition thenBranch stack e ih => exact ih
  | case4 stack e hsign hinfixed hbranch =>
    cases stack with
    | nil => rfl
    | cons frame stack =>
      cases frame with
      | sign op => exact (hsign op stack rfl).elim
      | infixed l left op => exact (hinfixed l left op stack rfl).elim
      | elseBranch condition branch => exact (hbranch condition branch stack rfl).elim
      | group | thenBranch _ => rfl

/-! ### Phases -/

namespace Phase

def unlined : Phase → Phase
  | .operand stack => .operand (stack.map Frame.unlined)
  | .operator stack e => .operator (stack.map Frame.unlined) e.unlined

theorem depth_stack_unlined (cost : Opening → Nat) (p : Phase) :
    depth cost p.unlined.stack = depth cost p.stack := by
  cases p with
  | operand stack => exact depth_unlined cost stack
  | operator stack e => exact depth_unlined cost stack

theorem unmet_unlined (stack : List Frame) : unmet (stack.map Frame.unlined) = unmet stack := by
  cases stack with
  | nil => rfl
  | cons frame stack => cases frame <;> rfl

theorem beginOperand_unlined (stack : List Frame) (t : Token) :
    beginOperand (stack.map Frame.unlined) t.kind t.unlined =
      (beginOperand stack t.kind t).map unlined := by
  obtain ⟨kind, lexeme, literal, line⟩ := t
  cases kind <;> rfl

theorem endOperand_unlined (stack : List Frame) (e : Expr) (k : Kind) :
    endOperand (stack.map Frame.unlined) e.unlined k = (endOperand stack e k).map unlined := by
  rw [endOperand.eq_def, endOperand.eq_def, close_unlined]
  generalize close stack e = closed
  obtain ⟨rest, e⟩ := closed
  cases rest with
  | nil => cases k <;> rfl
  | cons frame rest => cases frame <;> cases k <;> rfl

theorem afterOperand_unlined (stack : List Frame) (e : Expr) (t : Token) :
    afterOperand (stack.map Frame.unlined) e.unlined t.kind t.unlined =
      (afterOperand stack e t.kind t).map unlined := by
  rw [afterOperand.eq_def, afterOperand.eq_def]
  cases t.kind.level? with
  | some level =>
    simp only [fold_unlined]
    rfl
  | none =>
    simp only [fold_unlined, endOperand_unlined]
    split <;> rfl

/-- **A step does not see lines.** -/
theorem step_unlined (p : Phase) (t : Token) :
    p.unlined.step t.unlined = (p.step t).map unlined := by
  cases p with
  | operand stack => exact beginOperand_unlined stack t
  | operator stack e => exact afterOperand_unlined stack e t

theorem finish_unlined (p : Phase) : p.unlined.finish = p.finish.map Expr.unlined := by
  cases p with
  | operand stack => rfl
  | operator stack e =>
    rw [unlined, finish, finish, close_unlined]
    cases close stack e with
    | mk rest e =>
      cases rest with
      | nil => rfl
      | cons frame rest => exact congrArg Except.error (unmet_unlined (frame :: rest))

end Phase

/-! ### Parses -/

theorem Phase.waiting_unlined (p : Phase) : p.unlined.waiting = p.waiting.map Frame.unlined := by
  cases p with
  | operand stack => rfl
  | operator stack e => rw [unlined, waiting, close_unlined, waiting]

theorem Phase.reportDepth_unlined (cost : Opening → Nat) (p : Phase) (cause : SyntaxError.Cause) :
    p.unlined.reportDepth cost cause = p.reportDepth cost cause := by
  rw [reportDepth, waiting_unlined, depth_unlined, reportDepth]

def Reading.unlined (reading : Reading) : Reading :=
  { reading with result := reading.result.map Expr.unlined }

theorem stopAt_unlined (a : Allowance Opening) (p : Phase) (stop : Except SyntaxError.Cause Expr) :
    stopAt a p.unlined (stop.map Expr.unlined) = (stopAt a p stop).unlined := by
  cases stop with
  | ok tree => rfl
  | error cause =>
    rw [Except.map, stopAt, stopAt, Phase.reportDepth_unlined]
    split <;> rfl

theorem read_unlined (a : Allowance Opening) (tokens : List Token) : ∀ p : Phase,
    read a p.unlined (tokens.map Token.unlined) = (read a p tokens).unlined := by
  induction tokens with
  | nil =>
    intro p
    rw [List.map_nil, read, read, Phase.finish_unlined, stopAt_unlined]
  | cons t ts ih =>
    intro p
    rw [List.map_cons, read, read, Phase.step_unlined]
    cases p.step t with
    | error cause => exact stopAt_unlined a p (.error cause)
    | ok next =>
      show (if a.covers (depth a.cost next.unlined.stack) = true then _ else _) = _
      simp only [Phase.depth_stack_unlined, ih]
      split <;> rfl

theorem rest_unlined (p : Parser) : p.unlined.rest = p.rest.map Token.unlined := by
  show ((p.stream.tokens.map Token.unlined).drop p.position).takeWhile _ = _
  rw [← List.map_drop, List.takeWhile_map]
  rfl

/-- **A parse does not see lines**, and stops at the same position. -/
theorem parse_unlined (a : Allowance Opening) (p : Parser) :
    p.unlined.parse a = (unlinedOutcome (p.parse a).1, (p.parse a).2.unlined) := by
  have hread := read_unlined a p.rest .initial
  have hcurrent : ∀ q : Parser, q.unlined.current = q.current.unlined :=
    fun q => q.stream.tokenAt_unlined q.position
  rw [parse_eq, parse_eq, rest_unlined, show Phase.initial = Phase.initial.unlined from rfl, hread]
  simp only [show Phase.initial.unlined = Phase.initial from rfl, Reading.unlined]
  refine Prod.ext ?_ rfl
  have hstop := hcurrent (p.advance (read a .initial p.rest).count)
  cases (read a .initial p.rest).result with
  | ok tree => rfl
  | error halt =>
    cases halt with
    | raised cause => exact congrArg (fun t => Except.error (SyntaxError.mk cause t)) hstop
    | exhausted => exact congrArg (fun t => Except.error (SyntaxError.mk .tooDeep t)) hstop

/-- **Tokens that are the same up to lines** are parsed to trees that are the same up to lines,
or refused for the same cause at the same position. -/
theorem parse_eq_of_unlined (a : Allowance Opening) {s u : TokenStream}
    (h : s.unlined = u.unlined) :
    unlinedOutcome ((ofStream s).parse a).1 = unlinedOutcome ((ofStream u).parse a).1 ∧
      ((ofStream s).parse a).2.position = ((ofStream u).parse a).2.position := by
  have hs := parse_unlined a (ofStream s)
  have hu := parse_unlined a (ofStream u)
  have hsame : (ofStream s).unlined = (ofStream u).unlined := congrArg ofStream h
  rw [hsame, hu] at hs
  obtain ⟨hresult, hparser⟩ := Prod.mk.inj hs
  exact ⟨hresult.symm, (congrArg Parser.position hparser).symm⟩

end Parser

end LoxCalc
