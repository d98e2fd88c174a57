import LoxCalc.Number.Arithmetic
import LoxCalc.Text.WholeNumber
import LoxCalc.Reporting

/-!
# Configuration

The program has three settings: the number of decimal places of results, the
prompt, and the level from which log records are shown.  Settings come from
outside as raw values, by name or from environment variables, and are checked
one by one; all that is wrong is said at once, in the order of the settings.

A number of places is a natural number up to `maxPlaces`, and a `Config` holds
the proof of it.
-/

namespace LoxCalc

/-! ### Levels of the log -/

inductive LogLevel where
  | critical | fatal | error | warn | warning | info | debug | notset
  deriving DecidableEq, Repr

namespace LogLevel

def all : List LogLevel :=
  [.critical, .fatal, .error, .warn, .warning, .info, .debug, .notset]

def name : LogLevel → String
  | .critical => "CRITICAL"
  | .fatal => "FATAL"
  | .error => "ERROR"
  | .warn => "WARN"
  | .warning => "WARNING"
  | .info => "INFO"
  | .debug => "DEBUG"
  | .notset => "NOTSET"

/-- The upper case of a character, as far as it is a letter of ASCII.  Besides
the ASCII letters there are two characters of which this is so: the dotless i
and the long s. -/
def upperCase (c : Char) : Char :=
  if c = 'ı' then 'I' else if c = 'ſ' then 'S' else c.toUpper

/-- The level with a given name, in upper or lower case. -/
def ofName? (name : String) : Option LogLevel :=
  let upper := String.ofList (name.toList.map upperCase)
  all.find? (·.name == upper)

def showsTraces : LogLevel → Bool
  | .debug | .notset => true
  | _ => false

end LogLevel

/-! ### Settings -/

def maxPlaces : Nat := 17

structure Config where
  places : Places
  prompt : String
  logLevel : LogLevel
  places_le : (places : Nat) ≤ maxPlaces := by decide
  deriving DecidableEq, Repr

namespace Config

def standard : Config where
  places := defaultPlaces
  prompt := "> "
  logLevel := .warning

instance : Inhabited Config := ⟨standard⟩

/-- A value as it is given from outside. -/
inductive Raw where
  | text (s : String)
  | flag (b : Bool)
  | whole (n : Int)
  | real (x : Number)
  /-- Nothing, a list or a table. -/
  | other
  deriving DecidableEq, Repr

structure RawSettings where
  places : Option Raw
  prompt : Option Raw
  logLevel : Option Raw
  deriving DecidableEq, Repr

def RawSettings.unset : RawSettings := ⟨none, none, none⟩

/-! ### Errors -/

inductive Cause where
  | notAnInteger
  | tooLong
  | fractional
  | notFinite
  | notIntegral
  | tooGreat
  | negative
  | notText
  | unknownLevel (name : String)
  deriving DecidableEq, Repr

def Cause.code : Cause → String
  | .notAnInteger => "int_parsing"
  | .tooLong => "int_parsing_size"
  | .fractional => "int_from_float"
  | .notFinite => "finite_number"
  | .notIntegral => "int_type"
  | .tooGreat => "less_than_equal"
  | .negative => "greater_than_equal"
  | .notText => "string_type"
  | .unknownLevel _ => "value_error"

def Cause.message : Cause → String
  | .notAnInteger => "Input should be a valid integer, unable to parse string as an integer"
  | .tooLong => "Unable to parse input string as an integer, exceeded maximum size"
  | .fractional => "Input should be a valid integer, got a number with a fractional part"
  | .notFinite => "Input should be a finite number"
  | .notIntegral => "Input should be a valid integer"
  | .tooGreat => "Input should be less than or equal to 17"
  | .negative => "Input should be greater than or equal to 0"
  | .notText => "Input should be a valid string"
  | .unknownLevel name => "Value error, Unknown log level: " ++ name

inductive Field where
  | places
  | prompt
  | logLevel
  deriving DecidableEq, Repr

def Field.name : Field → String
  | .places => "number_precision"
  | .prompt => "prompt"
  | .logLevel => "log_level"

def Field.variable : Field → String
  | .places => "LOX_NUMBER_PRECISION"
  | .prompt => "LOX_PROMPT"
  | .logLevel => "LOX_LOG_LEVEL"

structure Error where
  field : Field
  cause : Cause
  deriving DecidableEq, Repr

/-! ### Checking -/

/-- The size from which a number in floating point is no integer any more. -/
def integralBound : Nat := 1 <<< 63

/-- A finite number as an integer: it has no fraction and is smaller in size than
`integralBound`. -/
def integral (negative : Bool) (rank : Nat) : Except Cause Int :=
  if Number.grains rank % Number.grainsPerUnit ≠ 0 then .error .fractional
  else
    let n := Number.grains rank / Number.grainsPerUnit
    if n < integralBound then .ok (if negative then -(n : Int) else n) else .error .tooLong

def Raw.integer : Raw → Except Cause Int
  | .text s =>
    match Text.readWhole s with
    | .ok n => .ok n
    | .error .malformed => .error .notAnInteger
    | .error .tooLong => .error .tooLong
  | .flag b => .ok (if b then 1 else 0)
  | .whole n => .ok n
  | .real (.finite negative rank) => integral negative rank
  | .real _ => .error .notFinite
  | .other => .error .notIntegral

theorem lt_placesLimit {n : Nat} (h : n ≤ maxPlaces) : n < placesLimit :=
  Nat.lt_of_le_of_lt h (by decide)

def Raw.places (raw : Raw) : Except Cause { n : Places // (n : Nat) ≤ maxPlaces } := do
  match ← raw.integer with
  | .ofNat n => if h : n ≤ maxPlaces then .ok ⟨⟨n, lt_placesLimit h⟩, h⟩ else .error .tooGreat
  | .negSucc _ => .error .negative

def Raw.asText : Raw → Except Cause String
  | .text s => .ok s
  | _ => .error .notText

def Raw.logLevel (raw : Raw) : Except Cause LogLevel := do
  let name ← raw.asText
  match LogLevel.ofName? name with
  | some level => .ok level
  | none => .error (.unknownLevel name)

/-- A setting: its standard value if none is given. -/
def check {α : Type} (standard : α) (read : Raw → Except Cause α) : Option Raw → Except Cause α
  | none => .ok standard
  | some raw => read raw

def errorsOf {α : Type} (field : Field) : Except Cause α → List Error
  | .ok _ => []
  | .error cause => [⟨field, cause⟩]

/-- The configuration with the given values over `base`, or everything that is
wrong with them. -/
def override (base : Config) (raw : RawSettings) : Except (List Error) Config :=
  let places := check ⟨base.places, base.places_le⟩ Raw.places raw.places
  let prompt := check base.prompt Raw.asText raw.prompt
  let logLevel := check base.logLevel Raw.logLevel raw.logLevel
  match places, prompt, logLevel with
  | .ok places, .ok prompt, .ok logLevel => .ok ⟨places.val, prompt, logLevel, places.property⟩
  | _, _, _ =>
    .error (errorsOf .places places ++ errorsOf .prompt prompt ++ errorsOf .logLevel logLevel)

def ofRaw (raw : RawSettings) : Except (List Error) Config :=
  standard.override raw

def rawOfEnvironment (lookup : String → Option String) : RawSettings where
  places := (lookup Field.places.variable).map .text
  prompt := (lookup Field.prompt.variable).map .text
  logLevel := (lookup Field.logLevel.variable).map .text

def ofEnvironment (lookup : String → Option String) : Except (List Error) Config :=
  ofRaw (rawOfEnvironment lookup)

end Config

end LoxCalc
