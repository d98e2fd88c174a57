import LoxCalc.Parser.Basic
import LoxCalc.Expr.Evaluation
import LoxCalc.Expr.Printer

/-!
# Limits

The allowances of the four walks over nested expressions, in one place.  The
walks are independent of each other: what one of them manages another one may
find too deep.  `Limits.standard` is what the program runs with.
-/

namespace LoxCalc

/-- The allowances of all walks. -/
structure Limits where
  parsing : Allowance Parser.Opening
  evaluating : Allowance Expr.Layer
  prefixPrinting : Allowance Expr.Layer
  infixPrinting : Allowance Expr.Layer

namespace Limits

/-- The frames that an opening takes while parsing: the levels of the grammar
between the opening and the operand, prefix operators or conditional inside it.
The report of a missing operand goes further down than the helpers of the level
that makes it; all other reports stay where the parse has been before. -/
def openingCost : Parser.Opening → Nat
  | .group => 9
  | .sign => 1
  | .branch => 3
  | .report .expectExpression => 1
  | .report _ => 0

/-- The frames that a layer takes while evaluating. -/
def layerCost : Expr.Layer → Nat
  | .grouping => 1
  | .unary | .binary | .conditional => 2

def standard : Limits where
  parsing := ⟨some 982, openingCost⟩
  evaluating := ⟨some 990, layerCost⟩
  prefixPrinting := ⟨some 993, fun _ => 3⟩
  infixPrinting := ⟨some 993, fun _ => 1⟩

def unbounded (l : Limits) : Limits where
  parsing := l.parsing.unbounded
  evaluating := l.evaluating.unbounded
  prefixPrinting := l.prefixPrinting.unbounded
  infixPrinting := l.infixPrinting.unbounded

end Limits

end LoxCalc
