import LoxCalc.Text.Quoted
import LoxCalc.Text.WholeNumber

/-!
# Options

The arguments of the program are options and names of scripts, in any order.  An
option begins with a hyphen; a hyphen alone is a name, and after two hyphens
alone all that follows is a name.  An option with a value takes it after an
equals sign or from the next argument, whatever that looks like, and of several
values the last one counts.

Arguments are read in two steps, because asking for the version comes between
them: first they are told apart, then the values are looked at.
-/

namespace LoxCalc.CommandLine

inductive Refusal where
  | unknownOption (name : String)
  | missingValue (name : String)
  | unexpectedValue (name : String)
  | notAnInteger (value : String)
  deriving DecidableEq, Repr

def Refusal.message : Refusal → String
  | .unknownOption name => "No such option: " ++ name
  | .missingValue name => "Option '" ++ name ++ "' requires an argument."
  | .unexpectedValue name => "Option '" ++ name ++ "' does not take a value."
  | .notAnInteger value =>
    "Invalid value for '--precision': " ++ Text.quoted value ++ " is not a valid integer."

structure Arguments where
  printTree : Bool
  showTokens : Bool
  version : Bool
  precision : Option String
  logLevel : Option String
  /-- The names of scripts, in order. -/
  scripts : List String
  deriving DecidableEq, Repr

namespace Arguments

def empty : Arguments := ⟨false, false, false, none, none, []⟩

inductive Flag where
  | printTree
  | showTokens
  | version
  deriving DecidableEq, Repr

inductive Setting where
  | precision
  | logLevel
  deriving DecidableEq, Repr

inductive Known where
  | flag (f : Flag)
  | setting (s : Setting)
  deriving DecidableEq, Repr

def known? (name : String) : Option Known :=
  if name = "--print-ast" then some (.flag .printTree)
  else if name = "--tokens" then some (.flag .showTokens)
  else if name = "--version" then some (.flag .version)
  else if name = "--precision" then some (.setting .precision)
  else if name = "--log-level" then some (.setting .logLevel)
  else none

def setFlag (a : Arguments) : Flag → Arguments
  | .printTree => { a with printTree := true }
  | .showTokens => { a with showTokens := true }
  | .version => { a with version := true }

/-- The arguments with a value in place of an earlier one. -/
def setValue (a : Arguments) (value : String) : Setting → Arguments
  | .precision => { a with precision := some value }
  | .logLevel => { a with logLevel := some value }

def addScripts (a : Arguments) (names : List String) : Arguments :=
  { a with scripts := a.scripts ++ names }

/-- Whether an argument is an option: a hyphen with something after it. -/
def isOption (argument : String) : Bool :=
  match argument.toList with
  | '-' :: _ :: _ => true
  | _ => false

/-- The name of an option, and its value if there is an equals sign. -/
def splitValue (argument : String) : String × Option String :=
  let text := argument.toList
  match text.dropWhile (· ≠ '=') with
  | _ :: value => (String.ofList (text.takeWhile (· ≠ '=')), some (String.ofList value))
  | [] => (argument, none)

def readFrom (a : Arguments) : List String → Except Refusal Arguments
  | [] => .ok a
  | argument :: rest =>
    if argument = "--" then .ok (a.addScripts rest)
    else if isOption argument then
      let (name, value?) := splitValue argument
      match known? name, value? with
      | none, _ => .error (.unknownOption name)
      | some (.flag _), some _ => .error (.unexpectedValue name)
      | some (.flag f), none => readFrom (a.setFlag f) rest
      | some (.setting s), some value => readFrom (a.setValue value s) rest
      | some (.setting s), none =>
        match rest with
        | [] => .error (.missingValue name)
        | value :: rest => readFrom (a.setValue value s) rest
    else readFrom (a.addScripts [argument]) rest

def read (arguments : List String) : Except Refusal Arguments :=
  readFrom empty arguments

def places? (a : Arguments) : Except Refusal (Option Int) :=
  match a.precision with
  | none => .ok none
  | some value =>
    match Text.readWhole value with
    | .ok n => .ok (some n)
    | .error _ => .error (.notAnInteger value)

end Arguments

end LoxCalc.CommandLine
