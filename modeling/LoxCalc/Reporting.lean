import LoxCalc.Limits

/-!
# Stages with a reporter

Scanning and evaluating give their errors as values, and here they hand them to
a reporter; parsing has reported its own.  Each stage leaves its traces in the
order in which they are to be seen: a stage's errors come before the trace that
it has come to its end.
-/

namespace LoxCalc

variable {σ : Type} [Sink σ]

/-- The number of decimal places of numbers where nothing else is asked for. -/
def defaultPlaces : Places := 6

def Scan.reportTo (s : Scan) (r : Reporter σ) : Reporter σ :=
  (r.reportAll (s.errors.map .ofLexical)).note (.scanned s.tokens.length s.lastLine)

/-- Parses.  An error that the grammar makes has been reported by the walk; a walk
that was exhausted is reported here, once nothing of it is left, and it leaves no
trace of being abandoned. -/
def Parser.parseReporting (a : Allowance Parser.Opening) (p : Parser) (r : Reporter σ) :
    Option Expr × Parser × Reporter σ :=
  let walked := p.walk a .initial r
  match walked.result with
  | .ok tree =>
    (some tree, walked.parser, walked.reporter.note (.parsed p.stream.tokens.length))
  | .error (.raised _) => (none, walked.parser, walked.reporter.note .abandoned)
  | .error .exhausted =>
    (none, walked.parser, walked.reporter.report (.ofSyntax ⟨.tooDeep, walked.parser.current⟩))

/-- Evaluates and displays the value; a runtime error is reported and leaves
nothing to display. -/
def Expr.interpret (a : Allowance Expr.Layer) (places : Int) (e : Expr) (r : Reporter σ) :
    Except Fault (Option String) × Reporter σ :=
  match e.evaluate a places with
  | .ok v => ((v.display places).map some, r)
  | .error (.runtime error) => (.ok none, r.report (.ofRuntime error))
  | .error (.fault f) => (.error f, r)

end LoxCalc
