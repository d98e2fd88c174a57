import LoxCalc.Number.Basic

/-!
# Arithmetic

Each operation on finite numbers is done exactly, on grains, and rounded once.
What is left are the special cases: NaN is contagious, operations on infinities
without a limit give NaN, and a zero has a sign.  Division by zero is an
infinity or NaN and no error.
-/

namespace LoxCalc.Number

def signedGrains (negative : Bool) (rank : Nat) : Int :=
  if negative then -(grains rank : Int) else grains rank

/-- The number nearest to a signed count of grains; `negativeZero` is the sign
of an exact zero. -/
def ofSignedGrains (negativeZero : Bool) (n : Int) : Number :=
  if n = 0 then ofRank negativeZero 0 else ofGrains (decide (n < 0)) n.natAbs 1

/-- Addition.  An exact zero is negative only if both operands are. -/
def add : Number → Number → Number
  | .nan, _ => .nan
  | _, .nan => .nan
  | .infinite a, .infinite b => if a = b then .infinite a else .nan
  | .infinite a, .finite .. => .infinite a
  | .finite .., .infinite b => .infinite b
  | .finite a r, .finite b s => ofSignedGrains (a && b) (signedGrains a r + signedGrains b s)

def subtract (x y : Number) : Number :=
  x.add y.negate

def multiply : Number → Number → Number
  | .nan, _ => .nan
  | _, .nan => .nan
  | .infinite a, .infinite b => .infinite (a != b)
  | .infinite a, .finite b s => if s.val = 0 then .nan else .infinite (a != b)
  | .finite a r, .infinite b => if r.val = 0 then .nan else .infinite (a != b)
  | .finite a r, .finite b s => ofGrains (a != b) (grains r * grains s) grainsPerUnit

def divide : Number → Number → Number
  | .nan, _ => .nan
  | _, .nan => .nan
  | .infinite _, .infinite _ => .nan
  | .infinite a, .finite b _ => .infinite (a != b)
  | .finite a _, .infinite b => ofRank (a != b) 0
  | .finite a r, .finite b s =>
    if s.val = 0 then (if r.val = 0 then .nan else .infinite (a != b))
    else ofGrains (a != b) (grains r * grainsPerUnit) (grains s)

end LoxCalc.Number
