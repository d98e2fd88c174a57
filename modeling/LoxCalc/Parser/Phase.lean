import LoxCalc.Expr.Basic
import LoxCalc.Nesting

/-!
# Phases of a parse

The grammar, from the loosest to the tightest level:

    expression     := comma
    comma          := ternary ("," ternary)*
    ternary        := equality ("?" expression ":" expression)?
    equality       := comparison (("==" | "!=") comparison)*
    comparison     := addition ((">" | ">=" | "<" | "<=") addition)*
    addition       := multiplication (("+" | "-") multiplication)*
    multiplication := unary (("*" | "/") unary)*
    unary          := ("!" | "-") unary | primary
    primary        := NUMBER | STRING | "true" | "false" | "nil" | "(" expression ")"

A parse reads one token at a time and keeps what it has begun and not finished
as a stack of *frames*, the innermost first.  It is in one of two phases: it
expects an operand, or it has one and expects an operator.  An operand is folded
into the frames below it as late as possible, namely when the next token shows
how far it reaches.

A group and either branch of a conditional hold a whole expression, so no
operator after such an operand folds anything across these frames.  In
particular an else branch takes every operator that follows it, commas included;
it ends only where its surroundings end.
-/

namespace LoxCalc

/-! ### Syntax errors -/

inductive SyntaxError.Cause where
  | expectExpression
  | expectRightParen
  | expectColon
  | expectEnd
  | tooDeep
  deriving DecidableEq, Repr

def SyntaxError.Cause.message : SyntaxError.Cause → String
  | .expectExpression => "Expect expression."
  | .expectRightParen => "Expect ')' after expression."
  | .expectColon => "Expect ':' after then branch of conditional expression."
  | .expectEnd => "Expect end of expression."
  | .tooDeep => "Expression nesting too deep."

structure SyntaxError where
  cause : SyntaxError.Cause
  token : Token
  deriving DecidableEq, Repr

/-! ### Frames -/

/-- The level of a binary operator; tighter operators have higher levels. -/
def Kind.level? : Kind → Option Nat
  | .comma => some 0
  | .equalEqual | .bangEqual => some 1
  | .greater | .greaterEqual | .less | .lessEqual => some 2
  | .minus | .plus => some 3
  | .star | .slash => some 4
  | _ => none

/-- The level of the loosest operators that the condition of a conditional may
hold outside parentheses. -/
def conditionLevel : Nat := 1

namespace Parser

/-- Something begun and not finished. -/
inductive Frame where
  /-- An open parenthesis. -/
  | group
  /-- A prefix operator that waits for its operand. -/
  | sign (operator : Token)
  /-- A binary operator that waits for its right operand. -/
  | infixed (level : Nat) (left : Expr) (operator : Token)
  /-- A conditional inside its then branch. -/
  | thenBranch (condition : Expr)
  /-- A conditional inside its else branch. -/
  | elseBranch (condition thenBranch : Expr)
  deriving DecidableEq, Repr

/-- What takes frames in a parse: what makes it deeper, and a report from inside. -/
inductive Opening where
  | group
  | sign
  | branch
  | report (cause : SyntaxError.Cause)
  deriving DecidableEq, Repr

/-- The opening that a frame stands for.  A binary operator is none: a chain of
operators, however long, is folded as it is read. -/
def Frame.opening? : Frame → Option Opening
  | .group => some .group
  | .sign _ => some .sign
  | .infixed .. => none
  | .thenBranch _ => some .branch
  | .elseBranch .. => some .branch

def Frame.cost (cost : Opening → Nat) (frame : Frame) : Nat :=
  match frame.opening? with
  | some opening => cost opening
  | none => 0

/-- What a stack costs: the costs of its frames. -/
def depth (cost : Opening → Nat) : List Frame → Nat
  | [] => 0
  | frame :: stack => frame.cost cost + depth cost stack

/-! ### Folding -/

/-- An operand folded into the operations that bind at least as tightly as
`level`. -/
def fold (level : Nat) : List Frame → Expr → List Frame × Expr
  | .sign op :: stack, e => fold level stack (.unary op e)
  | .infixed l left op :: stack, e =>
    if level ≤ l then fold level stack (.binary left op e) else (.infixed l left op :: stack, e)
  | stack, e => (stack, e)

/-- An operand folded into everything that ends with it, down to a frame that
waits for a token. -/
def close : List Frame → Expr → List Frame × Expr
  | .sign op :: stack, e => close stack (.unary op e)
  | .infixed _ left op :: stack, e => close stack (.binary left op e)
  | .elseBranch condition thenBranch :: stack, e =>
    close stack (.conditional condition thenBranch e)
  | stack, e => (stack, e)

/-! ### Phases -/

/-- Where a parse stands between two tokens. -/
inductive Phase where
  /-- An operand is expected. -/
  | operand (stack : List Frame)
  /-- An operand has been read. -/
  | operator (stack : List Frame) (e : Expr)
  deriving DecidableEq, Repr

namespace Phase

def stack : Phase → List Frame
  | .operand stack => stack
  | .operator stack _ => stack

def initial : Phase := .operand []

/-- What a closing token is refused for, by the frame that waits. -/
def unmet : List Frame → SyntaxError.Cause
  | .group :: _ => .expectRightParen
  | .thenBranch _ :: _ => .expectColon
  | _ => .expectEnd

/-- The phase after a token of the kind `k` where an operand is expected. -/
def beginOperand (stack : List Frame) (k : Kind) (t : Token) : Except SyntaxError.Cause Phase :=
  match k with
  | .falseWord => .ok (.operator stack (.literal (.bool false)))
  | .trueWord => .ok (.operator stack (.literal (.bool true)))
  | .nilWord => .ok (.operator stack (.literal .nil))
  | .number | .string => .ok (.operator stack (.literal t.literal))
  | .leftParen => .ok (.operand (.group :: stack))
  | .bang | .minus => .ok (.operand (.sign t :: stack))
  | _ => .error .expectExpression

/-- The phase after a token of the kind `k` that ends the operand `e` and is no
operator. -/
def endOperand (stack : List Frame) (e : Expr) (k : Kind) : Except SyntaxError.Cause Phase :=
  match close stack e, k with
  | (.group :: rest, e), .rightParen => .ok (.operator rest (.grouping e))
  | (.thenBranch condition :: rest, e), .colon => .ok (.operand (.elseBranch condition e :: rest))
  | (rest, _), _ => .error (unmet rest)

/-- The phase after a token of the kind `k` that follows the operand `e`. -/
def afterOperand (stack : List Frame) (e : Expr) (k : Kind) (t : Token) :
    Except SyntaxError.Cause Phase :=
  if let some level := k.level? then
    let (rest, left) := fold level stack e
    .ok (.operand (.infixed level left t :: rest))
  else if k = .question then
    let (rest, condition) := fold conditionLevel stack e
    .ok (.operand (.thenBranch condition :: rest))
  else endOperand stack e k

/-- The phase after the token `t`.  Its kind alone decides, and it has been looked
at before the token was taken. -/
def consume : Phase → Kind → Token → Except SyntaxError.Cause Phase
  | .operand stack, k, t => beginOperand stack k t
  | .operator stack e, k, t => afterOperand stack e k t

def step (p : Phase) (t : Token) : Except SyntaxError.Cause Phase :=
  p.consume t.kind t

def finish : Phase → Except SyntaxError.Cause Expr
  | .operand _ => .error .expectExpression
  | .operator stack e =>
    match close stack e with
    | ([], e) => .ok e
    | (rest, _) => .error (unmet rest)

/-- What waits below the place where something is missing.  A missing operand is
noticed by the innermost level of all, and all else by the level that waits for it. -/
def waiting : Phase → List Frame
  | .operand stack => stack
  | .operator stack e => (close stack e).1

/-- The depth that the report of an error reaches. -/
def reportDepth (cost : Opening → Nat) (p : Phase) (cause : SyntaxError.Cause) : Nat :=
  depth cost p.waiting + cost (.report cause)

end Phase

end Parser

end LoxCalc
