import LoxCalc.Number.Rounding

/-!
# Numbers

The numbers of the language are the binary64 numbers.  A finite one is a sign
and a *rank*: its place, counted from zero, among the finite magnitudes in
increasing order.  The rank is at the same time the low 63 bits of the usual
encoding, so equal ranks mean equal bits, and greater ranks greater magnitudes.

The smallest positive magnitude, `2 ^ -1074`, is called a *grain*.  Every finite
magnitude is a whole number of grains (`grains`), and this makes exact
arithmetic a matter of natural numbers.  `nearestRank` goes the other way: it
finds the rank whose magnitude is nearest to a quotient of grains.
`nearestRank_grains` says that it takes every magnitude back to its own rank.

There is a single NaN, since no operation of the language tells two apart.
-/

namespace LoxCalc

/-- The number of finite magnitudes. -/
def Number.rankBound : Nat := 0x7FF0000000000000

inductive Number where
  | nan
  | infinite (negative : Bool)
  | finite (negative : Bool) (rank : Fin Number.rankBound)
  deriving DecidableEq, Repr

namespace Number

/-- The number of ranks after which the distance between magnitudes doubles,
`2 ^ 52`. -/
def binade : Nat := 0x10000000000000

def grainsPerUnit : Nat := 1 <<< 1074

/-- The magnitude of a rank, in grains.  In the first two binades the magnitudes
are one grain apart, in each later one twice as far as in the one before. -/
def grains (rank : Nat) : Nat :=
  if rank < binade then rank
  else (binade + rank % binade) <<< (rank / binade - 1)

/-- The rank nearest to a magnitude of `num / den` grains, a tie going to the
even rank.  The quotient is first cut to 53 binary digits, or to whole grains
if it has fewer; the ranks of one such cut follow each other. -/
def nearestRank (num den : Nat) : Nat :=
  let shift := (num / den).log2 - 52
  roundDiv num (den <<< shift) + shift * binade

/-- The number of a sign and a rank; past the last finite magnitude, an infinity. -/
def ofRank (negative : Bool) (rank : Nat) : Number :=
  if h : rank < rankBound then .finite negative ⟨rank, h⟩ else .infinite negative

/-- The number nearest to a magnitude of `num / den` grains with a given sign. -/
def ofGrains (negative : Bool) (num den : Nat) : Number :=
  ofRank negative (nearestRank num den)

/-! ### Ranks and magnitudes -/

theorem log2_eq {n k : Nat} (low : 1 <<< k ≤ n) (high : n < 1 <<< (k + 1)) : n.log2 = k := by
  rw [Nat.one_shiftLeft] at low high
  have nonzero : n ≠ 0 := by
    have := Nat.two_pow_pos k
    omega
  have := (Nat.le_log2 nonzero).2 low
  have := (Nat.log2_lt nonzero).2 high
  omega

theorem log2_grains {rank : Nat} (h : binade ≤ rank) :
    (grains rank).log2 = 52 + (rank / binade - 1) := by
  have fraction : rank % binade < binade := Nat.mod_lt _ (by decide)
  rw [grains, if_neg (Nat.not_lt.2 h), Nat.shiftLeft_eq]
  apply log2_eq
  · rw [Nat.one_shiftLeft, Nat.pow_add]
    exact Nat.mul_le_mul_right _ (Nat.le_add_right _ _)
  · rw [Nat.one_shiftLeft, Nat.add_right_comm, Nat.pow_add]
    exact Nat.mul_lt_mul_of_pos_right (by simp only [binade] at *; omega) (Nat.two_pow_pos _)

/-- **Every magnitude is nearest to itself.** -/
theorem nearestRank_grains (rank : Nat) : nearestRank (grains rank) 1 = rank := by
  by_cases h : rank < binade
  · have unshifted : rank.log2 - 52 = 0 := by
      by_cases zero : rank = 0
      · subst zero
        decide
      · have := (Nat.log2_lt zero).2 (show rank < 2 ^ 52 from h)
        omega
    simp [nearestRank, grains, h, unshifted, roundDiv_one]
  · have later := Nat.not_lt.1 h
    have := Nat.div_add_mod rank binade
    have : 0 < rank / binade := Nat.div_pos later (by decide)
    rw [nearestRank, Nat.div_one, log2_grains later, Nat.add_sub_cancel_left, grains, if_neg h,
      Nat.shiftLeft_eq, Nat.shiftLeft_eq, Nat.one_mul, roundDiv_mul_left (Nat.two_pow_pos _)]
    simp only [binade] at *
    omega

/-! ### The encoding in 64 bits -/

/-- The place value of the sign bit, `2 ^ 63`. -/
def signUnit : Nat := 0x8000000000000000

def ofBits (bits : Nat) : Number :=
  let negative := bits / signUnit % 2 == 1
  let rank := bits % signUnit
  if rank < rankBound then ofRank negative rank
  else if rank = rankBound then .infinite negative
  else .nan

/-- The 64 bits of a number; for NaN the quiet one without a sign. -/
def toBits : Number → Nat
  | .nan => 0x7FF8000000000000
  | .infinite negative => negative.toNat * signUnit + rankBound
  | .finite negative rank => negative.toNat * signUnit + rank

/-! ### Sign and order -/

/-- An integer with the order of the numbers, none for NaN.  The two zeros
share their key. -/
def key? : Number → Option Int
  | .nan => none
  | .infinite negative => some (if negative then -rankBound else rankBound)
  | .finite negative rank => some (if negative then -(rank.val : Int) else rank.val)

/-- A comparison of keys that fails as soon as a NaN takes part. -/
def compareBy (related : Int → Int → Bool) (x y : Number) : Bool :=
  match x.key?, y.key? with
  | some a, some b => related a b
  | _, _ => false

def less (x y : Number) : Bool := compareBy (fun a b => decide (a < b)) x y

def lessEqual (x y : Number) : Bool := compareBy (fun a b => decide (a ≤ b)) x y

/-- Numeric equality: the two zeros are equal, and NaN equals nothing. -/
def equal (x y : Number) : Bool := compareBy (fun a b => decide (a = b)) x y

def negate : Number → Number
  | .nan => .nan
  | .infinite negative => .infinite (!negative)
  | .finite negative rank => .finite (!negative) rank

end Number

end LoxCalc
