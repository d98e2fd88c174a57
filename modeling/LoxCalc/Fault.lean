import LoxCalc.Text.Quoted

/-!
# Faults

A fault says that the library was handed something that its own scanner and
parser never make: a value of no type of the language, an operator that no rule
knows, a node that is no expression, a number of decimal places that nothing can
be displayed with.  It is no answer about the program that is evaluated, so it is
kept apart from the errors of such a program and is never reported as one.
-/

namespace LoxCalc

/-- What broke a rule that the library itself keeps. -/
inductive Fault where
  /-- A value to display is none of the language. -/
  | notAValue (n : Int)
  /-- A literal to print is none of the language. -/
  | unexpectedLiteral (n : Int)
  /-- A prefix operator that no rule of evaluation knows. -/
  | unexpectedUnary (lexeme : String)
  /-- A binary operator that no rule of evaluation knows. -/
  | unexpectedBinary (lexeme : String)
  /-- A thing of this kind stands where an expression should. -/
  | unhandledNode (kind : String)
  /-- A number is to be displayed with a negative number of places. -/
  | missingPrecision
  /-- A number is to be displayed with more places than there can be. -/
  | precisionTooBig
  /-- The same, when not even the number of places can be taken in. -/
  | tooManyDigits
  /-- A token sequence is not closed by an end of input. -/
  | unclosedTokens
  deriving DecidableEq, Repr

def Fault.message : Fault → String
  | .notAValue n => "Not a Lox value: " ++ toString n
  | .unexpectedLiteral n => "Unexpected literal value: " ++ toString n
  | .unexpectedUnary lexeme => "Unexpected unary operator " ++ Text.quoted lexeme
  | .unexpectedBinary lexeme => "Unexpected binary operator " ++ Text.quoted lexeme
  | .unhandledNode kind => "Unhandled expression node: " ++ kind
  | .missingPrecision => "Format specifier missing precision"
  | .precisionTooBig => "precision too big"
  | .tooManyDigits => "Too many decimal digits in format string"
  | .unclosedTokens => "Token sequence must end with an EOF token"

end LoxCalc
