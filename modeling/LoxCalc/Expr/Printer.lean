import LoxCalc.Expr.Basic
import LoxCalc.Nesting

/-!
# Printed forms

A tree is printed in two ways.  The *prefix form*, `(+ 1 (group (* 2 3)))`,
puts every operation in parentheses with its operator first.  The *infix form*,
`(1 + ((2 * 3)))`, is source again: every operation has parentheses of its own,
so no precedence is needed to read it.

Both take an operator's text from its token.  The infix form has no literal for
an infinity or a NaN and writes a division with the same value in its place.
-/

namespace LoxCalc.Expr

abbrev Printed : Type := Except (Halt Fault) String

def ofFault {α : Type} : Except Fault α → Except (Halt Fault) α
  | .ok a => .ok a
  | .error f => .error (.raised f)

def prefixForm (a : Allowance Layer) : Expr → Printed
  | .literal v => ofFault v.literalText
  | .grouping e => do
    let a ← a.descend .grouping
    let inner ← e.prefixForm a
    return "(group " ++ inner ++ ")"
  | .unary op e => do
    let a ← a.descend .unary
    let right ← e.prefixForm a
    return "(" ++ op.lexeme ++ " " ++ right ++ ")"
  | .binary l op r => do
    let a ← a.descend .binary
    let left ← l.prefixForm a
    let right ← r.prefixForm a
    return "(" ++ op.lexeme ++ " " ++ left ++ " " ++ right ++ ")"
  | .conditional c t e => do
    let a ← a.descend .conditional
    let condition ← c.prefixForm a
    let thenBranch ← t.prefixForm a
    let elseBranch ← e.prefixForm a
    return "(?: " ++ condition ++ " " ++ thenBranch ++ " " ++ elseBranch ++ ")"
  | .absent => .error (.raised (.unhandledNode "NoneType"))
  | .bare _ => .error (.raised (.unhandledNode "Token"))

def infixLiteral : Value → Except Fault String
  | .number .nan => .ok "(0/0)"
  | .number (.infinite negative) => .ok (if negative then "(-1/0)" else "(1/0)")
  | v => v.literalText

/-- What stands between the operands of a binary operation: a comma clings to
the left operand, other operators have a space on both sides. -/
def separator (lexeme : String) : String :=
  if lexeme = "," then ", " else " " ++ lexeme ++ " "

def infixForm (a : Allowance Layer) : Expr → Printed
  | .literal v => ofFault (infixLiteral v)
  | .grouping e => do
    let a ← a.descend .grouping
    let inner ← e.infixForm a
    return "(" ++ inner ++ ")"
  | .unary op e => do
    let a ← a.descend .unary
    let right ← e.infixForm a
    return "(" ++ op.lexeme ++ right ++ ")"
  | .binary l op r => do
    let a ← a.descend .binary
    let left ← l.infixForm a
    let right ← r.infixForm a
    return "(" ++ left ++ separator op.lexeme ++ right ++ ")"
  | .conditional c t e => do
    let a ← a.descend .conditional
    let condition ← c.infixForm a
    let thenBranch ← t.infixForm a
    let elseBranch ← e.infixForm a
    return "(" ++ condition ++ " ? " ++ thenBranch ++ " : " ++ elseBranch ++ ")"
  | .absent => .error (.raised (.unhandledNode "NoneType"))
  | .bare _ => .error (.raised (.unhandledNode "Token"))

end LoxCalc.Expr
