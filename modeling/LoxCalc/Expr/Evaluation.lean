import LoxCalc.Expr.Basic
import LoxCalc.Nesting

/-!
# Evaluation

A tree is evaluated from the inside, the left operand strictly before the right
one, and a conditional evaluates only the branch that its condition selects.
The first error ends the evaluation.

There are three ways to end without a value.  A `RuntimeError` belongs to the
program: an operator was applied to operands of the wrong type.  A `Fault`
belongs to whoever made the tree.  And the tree may be deeper than the allowance
permits; `evaluate` makes this a runtime error as well and places it at the
*anchor*, an operator that lies inside no other one.

The number of decimal places is a parameter because the message about operands
of `+` shows them; it has no part in the value.
-/

namespace LoxCalc

/-! ### Runtime errors -/

inductive RuntimeError.Cause where
  | operandNotNumber
  | operandsNotNumbers
  | operandNotString
  /-- The left operand of `+` is neither a string nor a number; both operands
  as they are displayed. -/
  | mismatchedOperands (left right : String)
  | tooDeep
  deriving DecidableEq, Repr

def RuntimeError.Cause.message : RuntimeError.Cause → String
  | .operandNotNumber => "Operand must be a number."
  | .operandsNotNumbers => "Operands must be numbers."
  | .operandNotString => "Operand must be a string."
  | .mismatchedOperands left right =>
    "Expected two strings or two numbers but got " ++ left ++ " + " ++ right ++ "."
  | .tooDeep => "Expression nesting too deep."

structure RuntimeError where
  token : Token
  cause : RuntimeError.Cause
  deriving DecidableEq, Repr

namespace RuntimeError

def message (e : RuntimeError) : String :=
  e.cause.message

def line (e : RuntimeError) : Int :=
  e.token.line

end RuntimeError

/-- Why an evaluation has no value. -/
inductive Trouble where
  | runtime (e : RuntimeError)
  | fault (f : Fault)
  deriving DecidableEq, Repr

/-! ### Operands -/

namespace Value

def checkNumber (operator : Token) : Value → Except RuntimeError Number
  | .number x => .ok x
  | _ => .error ⟨operator, .operandNotNumber⟩

def checkNumbers (operator : Token) : Value → Value → Except RuntimeError (Number × Number)
  | .number x, .number y => .ok (x, y)
  | _, _ => .error ⟨operator, .operandsNotNumbers⟩

def checkString (operator : Token) : Value → Except RuntimeError String
  | .string s => .ok s
  | _ => .error ⟨operator, .operandNotString⟩

end Value

/-! ### Operators -/

namespace Expr

abbrev Outcome : Type := Except Trouble Value

def ofRuntime {α : Type} : Except RuntimeError α → Except Trouble α
  | .ok a => .ok a
  | .error e => .error (.runtime e)

def operandText (places : Int) (v : Value) : Except Trouble String :=
  match v.display places with
  | .ok text => .ok text
  | .error f => .error (.fault f)

def applyUnary (operator : Token) (right : Value) : Outcome :=
  match operator.kind with
  | .minus => do
    let x ← ofRuntime (right.checkNumber operator)
    return .number x.negate
  | .bang => .ok (.bool (!right.isTruthy))
  | _ => .error (.fault (.unexpectedUnary operator.lexeme))

/-- The operators that take two numbers to a number. -/
def arithmetic? : Kind → Option (Number → Number → Number)
  | .minus => some Number.subtract
  | .slash => some Number.divide
  | .star => some Number.multiply
  | _ => none

def comparison? : Kind → Option (Number → Number → Bool)
  | .greater => some fun x y => y.less x
  | .greaterEqual => some fun x y => y.lessEqual x
  | .less => some Number.less
  | .lessEqual => some Number.lessEqual
  | _ => none

/-- The operator `+`: its left operand decides between strings and numbers. -/
def applyPlus (places : Int) (operator : Token) (left right : Value) : Outcome :=
  match left with
  | .string s => do
    let t ← ofRuntime (right.checkString operator)
    return .string (s ++ t)
  | .number x => do
    let y ← ofRuntime (right.checkNumber operator)
    return .number (x.add y)
  | _ => do
    let leftText ← operandText places left
    let rightText ← operandText places right
    throw (.runtime ⟨operator, .mismatchedOperands leftText rightText⟩)

def applyBinary (places : Int) (operator : Token) (left right : Value) : Outcome :=
  if let some compute := arithmetic? operator.kind then do
    let (x, y) ← ofRuntime (left.checkNumbers operator right)
    return .number (compute x y)
  else if let some holds := comparison? operator.kind then do
    let (x, y) ← ofRuntime (left.checkNumbers operator right)
    return .bool (holds x y)
  else
    match operator.kind with
    | .plus => applyPlus places operator left right
    | .equalEqual => .ok (.bool (left.isEqual right))
    | .bangEqual => .ok (.bool (!left.isEqual right))
    | .comma => .ok right
    | _ => .error (.fault (.unexpectedBinary operator.lexeme))

/-! ### Trees -/

def ofOutcome {α : Type} : Except Trouble α → Except (Halt Trouble) α
  | .ok a => .ok a
  | .error t => .error (.raised t)

def eval (places : Int) (a : Allowance Layer) : Expr → Except (Halt Trouble) Value
  | .literal v => .ok v
  | .grouping e => do
    let a ← a.descend .grouping
    e.eval places a
  | .unary op e => do
    let a ← a.descend .unary
    let right ← e.eval places a
    ofOutcome (applyUnary op right)
  | .binary l op r => do
    let a ← a.descend .binary
    let left ← l.eval places a
    let right ← r.eval places a
    ofOutcome (applyBinary places op left right)
  | .conditional c t e => do
    let a ← a.descend .conditional
    let condition ← c.eval places a
    if condition.isTruthy then t.eval places a else e.eval places a
  | .absent => .error (.raised (.fault (.unhandledNode "NoneType")))
  | .bare _ => .error (.raised (.fault (.unhandledNode "Token")))

/-- The token at which a tree that is too deep is reported: the first operator
on the way down through groups and the conditions of conditionals, or an end of
input on line 1 if there is none. -/
def anchor : Expr → Token
  | .unary op _ => op
  | .binary _ op _ => op
  | .grouping e => e.anchor
  | .conditional c _ _ => c.anchor
  | .literal _ | .absent | .bare _ => Token.endOfInput 1

/-- The value of a tree, or why it has none. -/
def evaluate (a : Allowance Layer) (places : Int) (e : Expr) : Outcome :=
  match e.eval places a with
  | .ok v => .ok v
  | .error (.raised t) => .error t
  | .error .exhausted => .error (.runtime ⟨e.anchor, .tooDeep⟩)

end Expr

end LoxCalc
