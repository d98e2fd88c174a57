import LoxCalc.Reporting

/-!
# Scripts

A script is one piece of source with what has been found out about it.  It is
scanned at most once and parsed at most once, whatever is asked of it and in
whatever order; so its errors are reported at most once as well.  Evaluating and
printing are done anew every time.

**Whether a script has a tree is decided by counting.**  A parse that raises the
reporter's count of errors has failed, and errors of the scan count if the scan
is done on the way.  If the script has been scanned before, its lexical errors
are already in the count when the parse begins.
-/

namespace LoxCalc

/-- A piece of source with what is known of it. -/
structure Script where
  source : Source
  /-- The number of decimal places of a result. -/
  places : Places
  scanned : Option Scan
  /-- The outcome of the parse, once it has been done. -/
  parsed : Option (Option Expr)
  deriving DecidableEq, Repr

inductive Execution where
  /-- There is no tree. -/
  | rejected
  /-- The evaluation of the tree ended in a runtime error. -/
  | failed (tree : Expr)
  | finished (tree : Expr) (value : Value) (output : String)
  deriving DecidableEq, Repr

namespace Execution

def tree? : Execution → Option Expr
  | .rejected => none
  | .failed tree => some tree
  | .finished tree _ _ => some tree

/-- The value of the run, nil if there is none. -/
def value : Execution → Value
  | .finished _ value _ => value
  | _ => .nil

def output? : Execution → Option String
  | .finished _ _ output => some output
  | _ => none

end Execution

namespace Script

def ofSource (source : Source) (places : Places) : Script :=
  ⟨source, places, none, none⟩

/-- The answer to a request, with the script and the reporter after it. -/
structure Turn (σ α : Type) where
  answer : α
  script : Script
  reporter : Reporter σ

variable {σ : Type} [Sink σ]

def scan (s : Script) (r : Reporter σ) : Turn σ Scan :=
  match s.scanned with
  | some scan => ⟨scan, s, r⟩
  | none =>
    let scan := Scan.ofSource s.source
    ⟨scan, { s with scanned := some scan }, scan.reportTo r⟩

/-- The tree of the script, if the parse raises no count of errors. -/
def parse (limits : Limits) (s : Script) (r : Reporter σ) : Turn σ (Option Expr) :=
  match s.parsed with
  | some tree => ⟨tree, s, r⟩
  | none =>
    let scanned := s.scan r
    let parser := Parser.ofStream (.ofScan scanned.answer)
    let (result, _, reporter) := parser.parseReporting limits.parsing scanned.reporter
    let tree := if r.errorCount < reporter.errorCount then none else result
    ⟨tree, { scanned.script with parsed := some tree }, reporter⟩

/-- Runs the script.  Messages show numbers with the default number of places,
only the result has the places of the script. -/
def execute (limits : Limits) (s : Script) (r : Reporter σ) : Turn σ (Except Fault Execution) :=
  let parsed := s.parse limits r
  match parsed.answer with
  | none => ⟨.ok .rejected, parsed.script, parsed.reporter⟩
  | some tree =>
    match tree.evaluate limits.evaluating defaultPlaces with
    | .ok value =>
      match value.display parsed.script.places with
      | .ok output =>
        ⟨.ok (.finished tree value output), parsed.script,
          parsed.reporter.note (.evaluated tree.kindName output)⟩
      | .error f => ⟨.error f, parsed.script, parsed.reporter⟩
    | .error (.runtime e) =>
      ⟨.ok (.failed tree), parsed.script, parsed.reporter.report (.ofRuntime e)⟩
    | .error (.fault f) => ⟨.error f, parsed.script, parsed.reporter⟩

/-- The prefix form of the tree.  A tree that is too deep to print is reported as
an error on the line of the first token. -/
def printTree (limits : Limits) (s : Script) (r : Reporter σ) :
    Turn σ (Except Fault (Option String)) :=
  let parsed := s.parse limits r
  match parsed.answer with
  | none => ⟨.ok none, parsed.script, parsed.reporter⟩
  | some tree =>
    match tree.prefixForm limits.prefixPrinting with
    | .ok text => ⟨.ok (some text), parsed.script, parsed.reporter⟩
    | .error (.raised f) => ⟨.error f, parsed.script, parsed.reporter⟩
    | .error .exhausted =>
      let scanned := parsed.script.scan parsed.reporter
      let first := (TokenStream.ofScan scanned.answer).tokenAt 0
      ⟨.ok none, scanned.script,
        scanned.reporter.report (.source first.line "" SyntaxError.Cause.tooDeep.message)⟩

end Script

/-- Runs a source with the default number of places and gives the text of its
value. -/
def runSource {σ : Type} [Sink σ] (limits : Limits) (source : Source) (r : Reporter σ) :
    Except Fault (Option String) × Reporter σ :=
  let turn := (Script.ofSource source defaultPlaces).execute limits r
  (turn.answer.map Execution.output?, turn.reporter)

end LoxCalc
