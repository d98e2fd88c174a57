import LoxCalc.Number.Basic

/-!
# Decimals and numbers

A decimal is a natural number with a power of ten.  `Decimal.rank` reads one:
it is the rank nearest to it.  `shortest` writes one: among the decimals with
the fewest digits that read back as the given rank it takes the one nearest to
the exact magnitude.

The search runs over grids of 1, 2, … 17 digits.  On each grid only the two
neighbours of the magnitude are tried, the nearer one first; **what reads back
is decided by the reader itself**, so no separate account of rounding intervals
is kept.  Seventeen digits are always enough; should no grid be hit the exact
decimal of the magnitude would be used, which reads back as well.
-/

namespace LoxCalc

/-- The magnitude `digits * 10 ^ exponent`. -/
structure Decimal where
  digits : Nat
  exponent : Int
  deriving DecidableEq, Repr

namespace Decimal

def tenPow (n : Nat) : Nat := Nat.pow 10 n

def rank (d : Decimal) : Nat :=
  match d.exponent with
  | .ofNat e => Number.nearestRank (d.digits * tenPow e * Number.grainsPerUnit) 1
  | .negSucc e => Number.nearestRank (d.digits * Number.grainsPerUnit) (tenPow (e + 1))

def toNumber (negative : Bool) (d : Decimal) : Number :=
  Number.ofRank negative d.rank

def digitText (d : Decimal) : List Char :=
  Nat.toDigits 10 d.digits

/-- The same magnitude with the zeros at the end of the digits moved into the
exponent. -/
def stripZeros (d : Decimal) : Decimal :=
  if h : d.digits ≠ 0 ∧ d.digits % 10 = 0 then
    stripZeros ⟨d.digits / 10, d.exponent + 1⟩
  else d
termination_by d.digits
decreasing_by exact Nat.div_lt_self (Nat.pos_of_ne_zero h.1) (by decide)

end Decimal

namespace Number

/-- The exponent of ten at which every finite magnitude is a whole number. -/
def finestExponent : Int := -1074

/-- A magnitude counted in units of `10 ^ finestExponent`. -/
def exactDigits (rank : Nat) : Nat :=
  grains rank * Nat.pow 5 1074

def exactDecimal (rank : Nat) : Decimal :=
  ⟨exactDigits rank, finestExponent⟩

/-- The two multiples of `unit` around `n`, the nearer one first; of two equally
near ones, the even multiple. -/
def neighbours (n unit : Nat) : List Nat :=
  let below := n / unit
  let rest := n % unit
  if 2 * rest < unit ∨ (2 * rest = unit ∧ below % 2 = 0) then [below, below + 1]
  else [below + 1, below]

/-- The neighbour on the grid of `count` digits that reads back, the nearer one
if both do.  `size` is the number of digits of the exact magnitude. -/
def onGrid? (rank size count : Nat) : Option Decimal :=
  let dropped := size - count
  ((neighbours (exactDigits rank) (Decimal.tenPow dropped)).map
    fun digits => (⟨digits, dropped + finestExponent⟩ : Decimal)).find? (·.rank = rank)

/-- The greatest number of digits that the shortest decimal of a number needs. -/
def longestShortest : Nat := 17

/-- The decimal with the fewest digits that reads back as `rank`; among several
of them, the one nearest to the exact magnitude. -/
def shortest (rank : Nat) : Decimal :=
  if rank = 0 then ⟨0, 0⟩
  else
    let size := (exactDecimal rank).digitText.length
    let found := (List.range longestShortest).findSome? fun k => onGrid? rank size (k + 1)
    (found.getD (exactDecimal rank)).stripZeros

end Number

end LoxCalc
