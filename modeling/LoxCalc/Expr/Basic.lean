import LoxCalc.Token.Basic

/-!
# Expressions

An expression is a literal, a group, a prefix or a binary operation, or a
conditional.  Operations hold the operator's token as it was read, because its
line belongs to the errors of the operation and its text to the printed forms.

Two constructors stand for something that is no expression: nothing at all, and
a bare token.  Only trees made by hand hold them.  They are part of the type so
that every walk has an answer for them; the answer is a fault, and only a walk
that reaches them gives it.
-/

namespace LoxCalc

inductive Expr where
  | literal (value : Value)
  | grouping (expression : Expr)
  | unary (operator : Token) (right : Expr)
  | binary (left : Expr) (operator : Token) (right : Expr)
  | conditional (condition thenBranch elseBranch : Expr)
  /-- Nothing where an expression should be. -/
  | absent
  /-- A token where an expression should be. -/
  | bare (token : Token)
  deriving DecidableEq, Repr

instance : Inhabited Expr := ⟨.absent⟩

namespace Expr

def kindName : Expr → String
  | .literal _ => "Literal"
  | .grouping _ => "Grouping"
  | .unary .. => "Unary"
  | .binary .. => "Binary"
  | .conditional .. => "Ternary"
  | .absent => "NoneType"
  | .bare _ => "Token"

/-- The steps from a node to its operands. -/
inductive Layer where
  | grouping
  | unary
  | binary
  | conditional
  deriving DecidableEq, Repr

/-- Whether two trees are the same.  Nodes agree in kind, operators as tokens
and literals as literals; the language's own equality of values plays no part. -/
def same : Expr → Expr → Bool
  | .literal v, .literal w => v.sameLiteral w
  | .grouping e, .grouping f => e.same f
  | .unary op e, .unary op' f => op.same op' && e.same f
  | .binary l op r, .binary l' op' r' => l.same l' && op.same op' && r.same r'
  | .conditional c t e, .conditional c' t' e' => c.same c' && t.same t' && e.same e'
  | .absent, .absent => true
  | .bare t, .bare u => t.same u
  | _, _ => false

def outline : Expr → String
  | .literal v => "Literal(" ++ v.outlineText ++ ")"
  | .grouping e => "Grouping(" ++ e.outline ++ ")"
  | .unary op e => "Unary(" ++ op.lexeme ++ " " ++ e.outline ++ ")"
  | .binary l op r => "Binary(" ++ l.outline ++ " " ++ op.lexeme ++ " " ++ r.outline ++ ")"
  | .conditional c t e =>
    "Ternary(" ++ c.outline ++ " ? " ++ t.outline ++ " : " ++ e.outline ++ ")"
  | .absent => "None"
  | .bare t => t.outline

end Expr

end LoxCalc
