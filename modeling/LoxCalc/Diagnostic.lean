import LoxCalc.Expr.Evaluation
import LoxCalc.Parser.Phase
import LoxCalc.Token.Scan

/-!
# Diagnostics

A diagnostic is what is said about a source: a lexical or syntax error with its
line and place, or a runtime error with its line.  `Diagnostic.text` is the
message, without a newline at its end.

A `Trace` is a record of work done, for whoever watches the program at work.  It
is not part of what is said about the source.
-/

namespace LoxCalc

/-- What is said about a source. -/
inductive Diagnostic where
  /-- A lexical or syntax error; `place` follows the word "Error" directly. -/
  | source (line : Int) (place message : String)
  | runtime (line : Int) (message : String)
  deriving DecidableEq, Repr

namespace Diagnostic

def text : Diagnostic → String
  | .source line place message =>
    "[line " ++ toString line ++ "] Error" ++ place ++ ": " ++ message
  | .runtime line message => message ++ "\n[line " ++ toString line ++ "]"

/-- Where a syntax error is: at a token, or at the end of input. -/
def placeOf (t : Token) : String :=
  if t.kind = .eof then " at end" else " at '" ++ t.lexeme ++ "'"

def ofLexical (e : LexicalError) : Diagnostic :=
  .source e.line "" e.cause.message

def ofSyntax (e : SyntaxError) : Diagnostic :=
  .source e.token.line (placeOf e.token) e.cause.message

def ofRuntime (e : RuntimeError) : Diagnostic :=
  .runtime e.line e.message

end Diagnostic

inductive Trace where
  | running (path : String)
  | scanned (tokens lines : Nat)
  | parsed (tokens : Nat)
  | abandoned
  | evaluated (kind output : String)
  | reported (d : Diagnostic)
  deriving DecidableEq, Repr

namespace Trace

def origin : Trace → String
  | .running _ => "lox.cli"
  | .scanned .. => "lox.lexer"
  | .parsed _ | .abandoned => "lox.parser.expression_parser"
  | .evaluated .. => "lox.executors"
  | .reported _ => "lox.reporter"

def message : Trace → String
  | .running path => "Running file " ++ path
  | .scanned tokens lines =>
    "Scanned " ++ toString tokens ++ " tokens over " ++ toString lines ++ " line(s)"
  | .parsed tokens => "Parsed expression from " ++ toString tokens ++ " tokens"
  | .abandoned => "Parse abandoned after syntax error"
  | .evaluated kind output => "Evaluated " ++ kind ++ " expression to " ++ output
  | .reported (.source line place message) =>
    "Syntax error on line " ++ toString line ++ place ++ ": " ++ message
  | .reported (.runtime line message) =>
    "Runtime error on line " ++ toString line ++ ": " ++ message

def text (t : Trace) : String :=
  "[DEBUG] " ++ t.origin ++ ": " ++ t.message

end Trace

end LoxCalc
