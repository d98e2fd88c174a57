import LoxCalc.Parser.Phase
import LoxCalc.Reporter

/-!
# Parsing

A parser stands at a position of a list of tokens that ends in an end of input.
`walk` reads exactly one expression from there to the next end of input, and
`synchronize` skips to where a statement may begin.  Both only move forward, and
neither moves past an end of input.

A parser looks at the current token and at the previous one.  It decides what to
do by the kind of the current token; a token is taken by going on to the next
position, and is the previous one then.  Before the first token there is none,
and the last token of the list stands in for it.

**An error is reported where it is noticed**, with all that has been begun still
open.  So a report takes frames, and it may be what exhausts a walk.
-/

namespace LoxCalc

/-- A list of tokens that ends in an end of input. -/
structure TokenStream where
  tokens : List Token
  closed : tokens.getLast?.map Token.kind = some .eof
  deriving DecidableEq, Repr

namespace TokenStream

def ofTokens? (tokens : List Token) : Option TokenStream :=
  if h : tokens.getLast?.map Token.kind = some .eof then some ⟨tokens, h⟩ else none

def ofScan (s : Scan) : TokenStream where
  tokens := s.tokens
  closed := by
    rw [Scan.tokens, Scan.tokensAfter, List.replicate_one, List.getLast?_concat]
    rfl

variable (s : TokenStream)

theorem tokens_ne_nil : s.tokens ≠ [] := by
  intro hnil
  have hclosed := s.closed
  rw [hnil] at hclosed
  cases hclosed

def last : Token :=
  s.tokens.getLast s.tokens_ne_nil

theorem last_kind : s.last.kind = .eof := by
  have hclosed := s.closed
  rw [List.getLast?_eq_some_getLast s.tokens_ne_nil] at hclosed
  exact Option.some.inj hclosed

/-- The token at a position, the last one if the list does not reach so far. -/
def tokenAt (position : Nat) : Token :=
  s.tokens.getD position s.last

end TokenStream

/-- A position in a token stream. -/
structure Parser where
  stream : TokenStream
  position : Nat
  deriving DecidableEq, Repr

namespace Parser

def ofStream (stream : TokenStream) : Parser :=
  ⟨stream, 0⟩

variable {σ : Type} [Sink σ]

def current (p : Parser) : Token :=
  p.stream.tokenAt p.position

/-- The token before the position of the parser.  Before the first position this
goes round to the last token. -/
def previous (p : Parser) : Token :=
  match p.position with
  | 0 => p.stream.last
  | position + 1 => p.stream.tokenAt position

def atEnd (p : Parser) : Bool :=
  p.current.kind = .eof

/-- The parser one token further on, unless the input has ended. -/
def next (p : Parser) : Parser :=
  if p.atEnd then p else { p with position := p.position + 1 }

def ahead (p : Parser) : Nat :=
  p.stream.tokens.length - p.position

theorem ahead_next_lt {p : Parser} (h : ¬ p.atEnd = true) : p.next.ahead < p.ahead := by
  have hinside : p.position < p.stream.tokens.length := by
    refine Nat.lt_of_not_le fun houtside => h ?_
    rw [atEnd, current, TokenStream.tokenAt, List.getD_eq_getElem?_getD,
      List.getElem?_eq_none houtside, Option.getD_none, p.stream.last_kind]
    rfl
  rw [next, if_neg h]
  exact Nat.sub_succ_lt_self _ _ hinside

/-! ### Reading an expression -/

structure Walked (σ : Type) where
  result : Except (Halt SyntaxError.Cause) Expr
  parser : Parser
  reporter : Reporter σ

/-- A walk that is refused the current token.  The error is counted first; without
the frames for the rest of its report the walk is exhausted. -/
def refuse (a : Allowance Opening) (phase : Phase) (cause : SyntaxError.Cause) (p : Parser)
    (r : Reporter σ) : Walked σ :=
  let d := Diagnostic.ofSyntax ⟨cause, p.current⟩
  let counted := r.count d
  if a.covers (phase.reportDepth a.cost cause) then ⟨.error (.raised cause), p, counted.tell d⟩
  else ⟨.error .exhausted, p, counted⟩

/-- Reads tokens from a phase on, and reports what is wrong with them.  The parser
then stands at the token that stopped it; when the stack has become too deep, this
is the token after the one that made it so. -/
def walk (a : Allowance Opening) (phase : Phase) (p : Parser) (r : Reporter σ) : Walked σ :=
  if p.atEnd then
    match phase.finish with
    | .ok tree => ⟨.ok tree, p, r⟩
    | .error cause => p.refuse a phase cause r
  else
    -- the kind is that of the current token, and the token is taken before it is used
    match phase.consume p.current.kind p.next.previous with
    | .error cause => p.refuse a phase cause r
    | .ok after =>
      if a.covers (depth a.cost after.stack) then walk a after p.next r
      else ⟨.error .exhausted, p.next, r⟩
termination_by p.ahead
decreasing_by exact ahead_next_lt ‹_›

/-- What a parse says of the end of a walk, at the token where it ended. -/
def SyntaxError.ofHalt (t : Token) : Halt SyntaxError.Cause → SyntaxError
  | .raised cause => ⟨cause, t⟩
  | .exhausted => ⟨.tooDeep, t⟩

/-- Reads one expression up to the end of input. -/
def parse (a : Allowance Opening) (p : Parser) : Except SyntaxError Expr × Parser :=
  let walked := p.walk a .initial (Reporter.fresh ())
  (walked.result.mapError (SyntaxError.ofHalt walked.parser.current), walked.parser)

/-! ### Recovery -/

/-- Goes on to a token behind a semicolon, a keyword that begins a statement, or
the end of input. -/
def skip (p : Parser) : Parser :=
  if p.atEnd then p
  else if p.previous.kind = .semicolon ∨ p.current.kind.beginsStatement then p
  else skip p.next
termination_by p.ahead
decreasing_by exact ahead_next_lt ‹_›

/-- Skips at least one token, unless the input has ended, and stops where a
statement may begin. -/
def synchronize (p : Parser) : Parser :=
  p.next.skip

end Parser

end LoxCalc
