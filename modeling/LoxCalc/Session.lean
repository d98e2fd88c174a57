import LoxCalc.Script

/-!
# Sessions

A session is a sequence of steps that share one reporter.  A step reports
something directly, starts a new script, asks something of the current one, or
runs a source on its own.
-/

namespace LoxCalc

namespace Session

inductive Step where
  | report (d : Diagnostic)
  /-- A new script becomes the current one. -/
  | start (source : Source) (places : Places)
  | scan
  | parse
  | execute
  | printTree
  | runSource (source : Source)
  deriving DecidableEq, Repr

inductive Answer where
  | nothing
  | tokens (tokens : List Token)
  | tree (tree : Option Expr)
  | execution (e : Execution)
  | text (text : Option String)
  deriving DecidableEq, Repr

end Session

/-- A reporter with the current script. -/
structure Session (σ : Type) where
  script : Script
  reporter : Reporter σ

namespace Session

variable {σ : Type} [Sink σ]

/-- A session before its first step; its script is empty. -/
def fresh (sink : σ) : Session σ :=
  ⟨.ofSource (.text "") defaultPlaces, .fresh sink⟩

def ofTurn {α : Type} (wrap : α → Answer) (turn : Script.Turn σ α) : Answer × Session σ :=
  (wrap turn.answer, ⟨turn.script, turn.reporter⟩)

def ofTurn? {α : Type} (wrap : α → Answer) (turn : Script.Turn σ (Except Fault α)) :
    Except Fault Answer × Session σ :=
  (turn.answer.map wrap, ⟨turn.script, turn.reporter⟩)

/-- What a step gives, and the session after it. -/
def step (limits : Limits) (s : Session σ) : Step → Except Fault Answer × Session σ
  | .report d => (.ok .nothing, { s with reporter := s.reporter.report d })
  | .start source places => (.ok .nothing, { s with script := .ofSource source places })
  | .scan => (ofTurn (fun scan => .tokens scan.tokens) (s.script.scan s.reporter)).map .ok id
  | .parse => (ofTurn .tree (s.script.parse limits s.reporter)).map .ok id
  | .execute => ofTurn? .execution (s.script.execute limits s.reporter)
  | .printTree => ofTurn? .text (s.script.printTree limits s.reporter)
  | .runSource source =>
    let (answer, reporter) := LoxCalc.runSource limits source s.reporter
    (answer.map .text, { s with reporter })

/-- The answers to a sequence of steps, each with the session after it. -/
def run (limits : Limits) : Session σ → List Step → List (Except Fault Answer × Session σ)
  | _, [] => []
  | s, step :: steps =>
    let next := s.step limits step
    next :: run limits next.2 steps

end Session

end LoxCalc
