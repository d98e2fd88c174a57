import LoxCalc.Text.Blank

/-!
# Whole numbers given as text

Settings and options are integers written as text.  A text is first rid of what
says nothing: white space around it, a plus in front of a digit, a fraction of
zeros, and the zeros at its front with the underscores among them.  What is left
is digits, perhaps with a minus in front, and between two digits there may be one
underscore.

Zeros at the front may be followed by a minus as well as by a digit, so `0-5` is
the same as `-5`; and since they are gone when underscores are looked at, `0__5`
is read and `1__0` is not.  Numbers of more than `longest` digits are not read at
all, where zeros in front of the first other digit do not count.
-/

namespace LoxCalc.Text

inductive WholeNumberError where
  | malformed
  | tooLong
  deriving DecidableEq, Repr

def longest : Nat := 4300

/-! ### What says nothing -/

/-- A text without a plus in front of a digit. -/
def withoutPlus : List Char → List Char
  | '+' :: c :: rest => if c.isDigit then c :: rest else '+' :: c :: rest
  | text => text

/-- A text without a fraction at its end, if the fraction is one zero or more. -/
def withoutZeroFraction (text : List Char) : List Char :=
  let whole := text.takeWhile (· ≠ '.')
  let fraction := text.drop (whole.length + 1)
  if !fraction.isEmpty && fraction.all (· == '0') then whole else text

/-- What a text leaves after zeros and underscores that end with `last`; with
nothing after them it is `last` itself. -/
def afterZeros (last : Char) : List Char → List Char
  | [] => [last]
  | c :: rest => if c = '0' ∨ c = '_' then afterZeros c rest else c :: rest

/-- A text that begins with a zero without the zeros at its front and the
underscores among them. -/
def withoutLeadingZeros : List Char → List Char
  | '0' :: rest => afterZeros '0' rest
  | text => text

/-! ### Digits -/

def digit? (c : Char) : Option Nat :=
  if c.isDigit then some (c.toNat - '0'.toNat) else none

/-- The values of the digits that follow a digit: an underscore has another digit
behind it. -/
def digitsAfter? : List Char → Option (List Nat)
  | [] => some []
  | '_' :: c :: rest => do
    let d ← digit? c
    let ds ← digitsAfter? rest
    return d :: ds
  | c :: rest => do
    let d ← digit? c
    let ds ← digitsAfter? rest
    return d :: ds

/-- The values of digits, at least one of them, with single underscores between
some. -/
def digits? : List Char → Option (List Nat)
  | [] => none
  | c :: rest => do
    let d ← digit? c
    let ds ← digitsAfter? rest
    return d :: ds

def ofDigits (digits : List Nat) : Nat :=
  digits.foldl (fun n d => 10 * n + d) 0

def readDigits (text : List Char) : Except WholeNumberError Nat :=
  match digits? text with
  | none => .error .malformed
  | some digits =>
    let digits := digits.dropWhile (· == 0)
    if longest < digits.length then .error .tooLong else .ok (ofDigits digits)

/-! ### Reading -/

/-- The integer that digits denote, perhaps with a minus in front. -/
def readSigned : List Char → Except WholeNumberError Int
  | '-' :: unsigned => do
    let n ← readDigits unsigned
    return -(n : Int)
  | unsigned => do
    let n ← readDigits unsigned
    return (n : Int)

def readWhole (text : String) : Except WholeNumberError Int :=
  let trimmed := trimWhile isWhiteSpace text.toList
  readSigned (withoutLeadingZeros (withoutZeroFraction (withoutPlus trimmed)))

end LoxCalc.Text
