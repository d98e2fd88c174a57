import LoxCalc.Number.Decimal

/-!
# The text of a number

A decimal is written in positional notation, `1234.5`, or with an exponent,
`1.2345e+22`.  A `NumberStyle` says when which of them is used; the three styles
of the library are

* `NumberStyle.literal`, always positional, the way a literal stands in source;
* `NumberStyle.token`, for the listing of tokens, where a whole number is marked
  by `.0` and very large and very small numbers have an exponent;
* `Number.fixed`, a given number of decimal places, for results.

The first two write the shortest decimal that reads back, the third one rounds
the exact value.  Infinities and NaN have the same names in all of them.
-/

namespace LoxCalc

namespace Decimal

/-- Positional notation: no exponent, and no point without a digit on both
sides of it. -/
def positional (d : Decimal) : List Char :=
  match d.exponent with
  | .ofNat e => d.digitText ++ List.replicate (if d.digits = 0 then 0 else e) '0'
  | .negSucc e =>
    let places := e + 1
    let digits := d.digitText
    let padded := List.replicate (places + 1 - digits.length) '0' ++ digits
    padded.take (padded.length - places) ++ '.' :: padded.drop (padded.length - places)

def leadingExponent (d : Decimal) : Int :=
  d.exponent + d.digitText.length - 1

/-- Scientific notation: one digit before the point, the exponent with its sign
and at least two digits. -/
def scientific (d : Decimal) : List Char :=
  let mantissa := match d.digitText with
    | first :: second :: rest => first :: '.' :: second :: rest
    | digits => digits
  let exponent := d.leadingExponent
  let digits := Nat.toDigits 10 exponent.natAbs
  mantissa ++ 'e' :: (if exponent < 0 then '-' else '+') ::
    (List.replicate (2 - digits.length) '0' ++ digits)

end Decimal

structure NumberStyle where
  /-- Whether positional notation serves for this exponent of the leading digit. -/
  isPositional : Int → Bool
  /-- Whether a whole number in positional notation ends in `.0`. -/
  marksWhole : Bool

namespace NumberStyle

/-- Literals are positional throughout: the language has no exponents. -/
def literal : NumberStyle := ⟨fun _ => true, false⟩

/-- In a listing of tokens the exponents from -4 to 15 are positional. -/
def token : NumberStyle := ⟨fun e => -4 ≤ e && e < 16, true⟩

def write (style : NumberStyle) (d : Decimal) : List Char :=
  if style.isPositional d.leadingExponent then
    d.positional ++ (if style.marksWhole && 0 ≤ d.exponent then ['.', '0'] else [])
  else d.scientific

end NumberStyle

namespace Number

def signed (negative : Bool) (text : List Char) : List Char :=
  if negative then '-' :: text else text

/-- A number in a given style, with the fewest digits that read back. -/
def write (style : NumberStyle) : Number → List Char
  | .nan => ['n', 'a', 'n']
  | .infinite negative => signed negative ['i', 'n', 'f']
  | .finite negative rank => signed negative (style.write (shortest rank))

def roundedTo (places rank : Nat) : Decimal :=
  ⟨roundDiv (grains rank * Decimal.tenPow places) grainsPerUnit, -(places : Int)⟩

/-- A number with a fixed number of decimal places, rounded from its exact
value. -/
def fixed (places : Nat) : Number → List Char
  | .nan => ['n', 'a', 'n']
  | .infinite negative => signed negative ['i', 'n', 'f']
  | .finite negative rank => signed negative (roundedTo places rank).positional

end Number

end LoxCalc
