import LoxCalc.Fault
import LoxCalc.Number.Arithmetic
import LoxCalc.Number.Text

/-!
# Values

The values of the language are nil, booleans, numbers and strings.  A fifth
constructor, `foreign`, holds a host integer that somebody has put into a tree
or a token by hand: no operator takes it for a number or a string, and it has
no text of its own, but it is a value like any other where a value is only
passed on, tested for truth or compared.

`isEqual` is the equality of the language, which tells types apart.
`sameLiteral` is the equality of trees, which is coarser: a boolean and a
number are the same literal there if they have the same numeric value.

A host may ask for any number of decimal places.  Numbers are displayed with
`Places` of them, which are bounded, and asking for another number is a fault.
-/

namespace LoxCalc

/-! ### Decimal places -/

/-- Numbers are displayed with fewer decimal places than this. -/
def placesLimit : Nat := 1 <<< 31

/-- A number of places from here on is not taken in at all. -/
def wordLimit : Nat := 1 <<< 63

-- the instance of zero is the one that numerals of `Fin` ask for
instance : @NeZero Nat Zero.ofOfNat0 placesLimit := ⟨Nat.succ_ne_zero (placesLimit - 1)⟩

/-- The numbers of decimal places that numbers can be displayed with. -/
abbrev Places : Type := Fin placesLimit

/-! ### Values -/

inductive Value where
  | nil
  | bool (b : Bool)
  | number (x : Number)
  | string (s : String)
  /-- An integer that is no value of the language. -/
  | foreign (n : Int)
  deriving DecidableEq, Repr

instance : Inhabited Value := ⟨.nil⟩

namespace Value

def isNumber : Value → Bool
  | .number _ => true
  | _ => false

def isString : Value → Bool
  | .string _ => true
  | _ => false

/-- Nil and false are false, all else is true. -/
def isTruthy : Value → Bool
  | .nil => false
  | .bool b => b
  | _ => true

/-- Equality of the language: values of different types are never equal, and a
NaN is not equal to itself. -/
def isEqual : Value → Value → Bool
  | .nil, .nil => true
  | .bool a, .bool b => a == b
  | .number x, .number y => x.equal y
  | .string s, .string t => s == t
  | .foreign m, .foreign n => m == n
  | _, _ => false

/-! ### Equality of literals in trees -/

/-- What a value counts for when literals are compared: booleans and integers
count as numbers, given in grains so that nothing is rounded. -/
inductive Content where
  | nothing
  | amount (grains : Int)
  | unbounded (negative : Bool)
  | undefined
  | text (s : String)
  deriving DecidableEq

def content : Value → Content
  | .nil => .nothing
  | .bool b => .amount ((if b then 1 else 0) * Number.grainsPerUnit)
  | .number .nan => .undefined
  | .number (.infinite negative) => .unbounded negative
  | .number (.finite negative rank) => .amount (Number.signedGrains negative rank)
  | .string s => .text s
  | .foreign n => .amount (n * Number.grainsPerUnit)

def sameLiteral (v w : Value) : Bool :=
  decide (v.content = w.content)

/-! ### Text -/

/-- Why no number is displayed with so many places, whichever number it is. -/
def placesFault? (places : Int) : Option Fault :=
  if places < 0 then some .missingPrecision
  else if places < placesLimit then none
  else if places < wordLimit then some .precisionTooBig
  else some .tooManyDigits

/-- The text of a value as a result, numbers with `places` decimal places. -/
def display (places : Int) : Value → Except Fault String
  | .nil => .ok "nil"
  | .bool b => .ok (if b then "true" else "false")
  | .number x =>
    match placesFault? places with
    | some fault => .error fault
    | none => .ok (String.ofList (x.fixed places.toNat))
  | .string s => .ok s
  | .foreign n => .error (.notAValue n)

/-- The text of a value as a literal in source.  Strings are not escaped, since
the language has no escapes. -/
def literalText : Value → Except Fault String
  | .nil => .ok "nil"
  | .bool b => .ok (if b then "true" else "false")
  | .number x => .ok (String.ofList (x.write .literal))
  | .string s => .ok ("\"" ++ s ++ "\"")
  | .foreign n => .error (.unexpectedLiteral n)

/-- The text of a value in the listing of tokens, where nil is not shown. -/
def listingText : Value → String
  | .nil => ""
  | .bool b => if b then "True" else "False"
  | .number x => String.ofList (x.write .token)
  | .string s => s
  | .foreign n => toString n

def outlineText : Value → String
  | .nil => "None"
  | .string s => Text.quoted s
  | v => v.listingText

end Value

end LoxCalc
