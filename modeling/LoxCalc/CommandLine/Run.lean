import LoxCalc.CommandLine.Console
import LoxCalc.CommandLine.Options
import LoxCalc.CommandLine.Path
import LoxCalc.Script

/-!
# Running the program

The program runs one script from a file, or reads lines from a prompt and runs
each of them as a script of its own.  `plan` decides from the arguments and the
environment what is to be done, before any file is opened; `runFile` and
`runPrompt` do it.

The exit status of a file tells how it went: an unreadable file, a lexical or
syntax error, a runtime error, or none of these, where the errors of the source
come before those of its evaluation.  A prompt always ends well.
-/

namespace LoxCalc.CommandLine

inductive ExitStatus where
  | success
  /-- The arguments or the settings are wrong. -/
  | usage
  /-- The source has a lexical or syntax error, or is too deep to print. -/
  | dataError
  /-- The script cannot be read. -/
  | noInput
  /-- The evaluation ended in a runtime error. -/
  | software
  deriving DecidableEq, Repr

def ExitStatus.code : ExitStatus → Nat
  | .success => 0
  | .usage => 64
  | .dataError => 65
  | .noInput => 66
  | .software => 70

def refusalCode : Nat := 2

structure Ended where
  status : ExitStatus
  out : String
  err : String
  deriving DecidableEq, Repr

def Ended.ofReporter (status : ExitStatus) (r : Reporter Console) : Ended :=
  ⟨status, r.sink.out, r.sink.err⟩

/-! ### Running one script -/

structure View where
  /-- The tree instead of the value. -/
  printTree : Bool
  /-- The tokens before anything else. -/
  showTokens : Bool
  deriving DecidableEq, Repr

/-- The reporter after the line that a script answers with, if it does. -/
def writeAnswer (r : Reporter Console) : Except Fault (Option String) → Reporter Console
  | .ok (some text) => r.writeLine text
  | _ => r

def listTokens (s : Script) (r : Reporter Console) : Script × Reporter Console :=
  let turn := s.scan r
  (turn.script, (turn.answer.tokens.map Token.listing).foldl Reporter.writeLine turn.reporter)

/-- Runs a source and writes what is to be seen of it. -/
def runScript (limits : Limits) (config : Config) (view : View) (source : Source)
    (r : Reporter Console) : Reporter Console :=
  let script := Script.ofSource source config.places
  let (script, r) := if view.showTokens then listTokens script r else (script, r)
  if view.printTree then
    let turn := script.printTree limits r
    writeAnswer turn.reporter turn.answer
  else
    let turn := script.execute limits r
    writeAnswer turn.reporter (turn.answer.map Execution.output?)

/-! ### A file -/

def statusOf {σ : Type} (r : Reporter σ) : ExitStatus :=
  if r.hadError then .dataError else if r.hadRuntimeError then .software else .success

/-- Runs the script in a file, of which `contents` is what reading it gave. -/
def runFile (limits : Limits) (config : Config) (view : View) (path : Path)
    (contents : Except ReadError (List UInt8)) : Ended :=
  let start := (Reporter.onConsole config.logLevel).note (.running path.text)
  match contents with
  | .ok bytes =>
    let r := runScript limits config view (.bytes bytes) start
    .ofReporter (statusOf r) r
  | .error e =>
    .ofReporter .noInput (start.complain ("Could not read " ++ path.text ++ ": " ++ e.message))

/-! ### A prompt -/

/-- The lines of a text, each with the newline that ends it. -/
def lines : List Char → List (List Char)
  | [] => []
  | c :: rest =>
    if c = '\n' then [c] :: lines rest
    else match lines rest with
      | [] => [[c]]
      | line :: more => (c :: line) :: more

def ask (config : Config) (r : Reporter Console) : Reporter Console :=
  r.write config.prompt

def askAndRun (limits : Limits) (config : Config) (view : View) (r : Reporter Console)
    (line : List Char) : Reporter Console :=
  runScript limits config view (.text (String.ofList line)) (ask config r)

/-- Runs the lines of a text one by one with one reporter. -/
def runPrompt (limits : Limits) (config : Config) (view : View) (input : List Char) : Ended :=
  let start := Reporter.onConsole config.logLevel
  let r := (lines input).foldl (askAndRun limits config view) start
  .ofReporter .success ((ask config r).writeLine "")

/-! ### What to do -/

inductive Plan where
  /-- The arguments are refused. -/
  | refuse (r : Refusal)
  /-- There is nothing to run. -/
  | finish (e : Ended)
  | file (config : Config) (view : View) (path : Path)
  | prompt (config : Config) (view : View)

def versionText : String := "lox-expr 0.1.0"

/-- What is wrong with the settings: how much on the first line, then each
setting with its error. -/
def configurationText (errors : List Config.Error) : String :=
  let count := toString errors.length ++ " validation error" ++
    (if errors.length = 1 then "" else "s") ++ " for LoxConfig"
  let details := errors.map fun e => "\n" ++ e.field.name ++ "\n  " ++ e.cause.message
  "Invalid configuration: " ++ count ++ String.join details

/-- Settings that the arguments put over those of the environment. -/
def overriding (places : Option Int) (logLevel : Option String) : Config.RawSettings where
  places := places.map .whole
  prompt := none
  logLevel := logLevel.map .text

/-- The configuration of the environment, checked first, with the settings of
the arguments over it. -/
def configure (lookup : String → Option String) (places : Option Int) (logLevel : Option String) :
    Except (List Config.Error) Config := do
  let base ← Config.ofEnvironment lookup
  base.override (overriding places logLevel)

/-- The end of a run in which nothing has been run. -/
def complaint (text : String) : Ended :=
  ⟨.usage, "", Text.unstyled (text ++ "\n")⟩

def plan (arguments : List String) (lookup : String → Option String) : Plan :=
  match Arguments.read arguments with
  | .error refusal => .refuse refusal
  | .ok a =>
    if a.version then .finish ⟨.success, versionText ++ "\n", ""⟩
    else match a.places? with
      | .error refusal => .refuse refusal
      | .ok places =>
        match configure lookup places a.logLevel with
        | .error errors => .finish (complaint (configurationText errors))
        | .ok config =>
          let view : View := ⟨a.printTree, a.showTokens⟩
          match a.scripts with
          | [] => .prompt config view
          | [name] => .file config view (.ofText name)
          | _ => .finish (complaint "Usage: lox [script]")

/-- A whole run: the files that it may read and its standard input are given. -/
def run (limits : Limits) (arguments : List String) (lookup : String → Option String)
    (files : FileTree) (input : List Char) : Except Refusal Ended :=
  match plan arguments lookup with
  | .refuse refusal => .error refusal
  | .finish ended => .ok ended
  | .file config view path => .ok (runFile limits config view path (files.read path))
  | .prompt config view => .ok (runPrompt limits config view input)

end LoxCalc.CommandLine
