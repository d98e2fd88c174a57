import Mathlib.Algebra.Order.Field.Power
import Mathlib.Algebra.Order.Field.Basic
import Mathlib.Data.Rat.Cast.Order
import Mathlib.Tactic.FieldSimp
import Mathlib.Tactic.Ring
import LoxCalc.Proofs.Number.Nearest
import LoxCalc.Proofs.Number.ReadBack

/-!
# Decimals as they are read

A decimal stands for a rational number (`Decimal.value`), and so does a rank (`Number.magnitude`).
The rank that a decimal is read as is the one whose number is nearest to it, and of two equally
near ones the even one; **there is no other such rank** (`Decimal.rank_eq_iff`).  A greater decimal
is read as no lower rank (`Decimal.rank_mono`).
-/

namespace LoxCalc

def Number.magnitude (rank : Nat) : ℚ := grains rank / grainsPerUnit

namespace Decimal

open Number

/-! ### The value of a decimal -/

def value (d : Decimal) : ℚ := d.digits * (10 : ℚ) ^ d.exponent

theorem tenPow_add (m n : Nat) : tenPow (m + n) = tenPow m * tenPow n :=
  Nat.pow_add 10 m n

theorem cast_tenPow (n : Nat) : (tenPow n : ℚ) = 10 ^ (n : ℤ) := by
  rw [zpow_natCast]
  exact Nat.cast_pow 10 n

theorem value_add (digits : Nat) (exponent : Int) (n : Nat) :
    value ⟨digits, exponent + n⟩ = value ⟨digits * tenPow n, exponent⟩ := by
  simp only [value, Nat.cast_mul, cast_tenPow]
  rw [zpow_add₀ (by norm_num)]
  ring

theorem rank_add (digits : Nat) (exponent : Int) (n : Nat) :
    rank ⟨digits, exponent + n⟩ = rank ⟨digits * tenPow n, exponent⟩ := by
  induction n generalizing digits with
  | zero => simp [tenPow]
  | succ n ih =>
    have hexponent : exponent + ((n + 1 : Nat) : Int) = exponent + n + 1 := by omega
    rw [hexponent, ← rank_mul_ten, ih, tenPow_succ, Nat.mul_assoc, Nat.mul_comm 10]

theorem value_le_value {digits digits' : Nat} (exponent : Int) :
    value ⟨digits, exponent⟩ ≤ value ⟨digits', exponent⟩ ↔ digits ≤ digits' := by
  rw [value, value, mul_le_mul_iff_left₀ (zpow_pos (by norm_num) exponent), Nat.cast_le]

theorem rank_le_rank {digits digits' : Nat} (exponent : Int) (h : digits ≤ digits') :
    rank ⟨digits, exponent⟩ ≤ rank ⟨digits', exponent⟩ := by
  cases exponent with
  | ofNat e =>
    exact nearestRank_mono Nat.one_pos (Nat.mul_le_mul_right _ (Nat.mul_le_mul_right _ h))
  | negSucc e => exact nearestRank_mono (tenPow_pos _) (Nat.mul_le_mul_right _ h)

theorem rank_mono {d d' : Decimal} (h : d.value ≤ d'.value) : d.rank ≤ d'.rank := by
  obtain ⟨digits, exponent⟩ := d
  obtain ⟨digits', exponent'⟩ := d'
  rcases Int.le_total exponent exponent' with hle | hle
  · obtain ⟨n, rfl⟩ := Int.exists_add_of_le hle
    rw [value_add, value_le_value] at h
    rw [rank_add]
    exact rank_le_rank _ h
  · obtain ⟨n, rfl⟩ := Int.exists_add_of_le hle
    rw [value_add, value_le_value] at h
    rw [rank_add]
    exact rank_le_rank _ h

theorem value_stripZeros (d : Decimal) : d.stripZeros.value = d.value := by
  fun_induction stripZeros d with
  | case1 d h ih =>
    have hdigits : d.digits / 10 * 10 = d.digits := Nat.div_mul_cancel (Nat.dvd_of_mod_eq_zero h.2)
    have hmove := value_add (d.digits / 10) d.exponent 1
    rw [show tenPow 1 = 10 from rfl, hdigits] at hmove
    rw [ih]
    exact hmove
  | case2 d h => rfl

/-! ### The rank of a decimal -/

/-- Whether the rank is the one nearest to the decimal, or even if there are two. -/
structure RoundsTo (d : Decimal) (rank : Nat) : Prop where
  nearest : ∀ other, |d.value - magnitude rank| ≤ |d.value - magnitude other|
  even : ∀ other, other ≠ rank →
    |d.value - magnitude other| = |d.value - magnitude rank| → rank % 2 = 0

theorem grainsPerUnit_pos : 0 < grainsPerUnit := by
  rw [grainsPerUnit]
  exact one_shiftLeft_pos _

theorem exists_quotient (d : Decimal) : ∃ num den, 0 < den ∧ d.rank = nearestRank num den ∧
    d.value = num / (den * grainsPerUnit) := by
  have hunit : (grainsPerUnit : ℚ) ≠ 0 := by exact_mod_cast grainsPerUnit_pos.ne'
  obtain ⟨digits, exponent⟩ := d
  cases exponent with
  | ofNat e =>
    refine ⟨_, 1, Nat.one_pos, rfl, ?_⟩
    have hpower : (10 : ℚ) ^ (Int.ofNat e) = tenPow e := (cast_tenPow e).symm
    rw [value, hpower]
    push_cast
    field_simp
  | negSucc e =>
    refine ⟨_, _, tenPow_pos (e + 1), rfl, ?_⟩
    have hpower : (10 : ℚ) ^ (Int.negSucc e) = (tenPow (e + 1) : ℚ)⁻¹ := by
      rw [Int.negSucc_eq, zpow_neg, cast_tenPow]
      rfl
    rw [value, hpower]
    push_cast
    field_simp

theorem abs_cast_sub (a b : Nat) : |(a : ℚ) - b| = a.dist b := by
  rcases Nat.le_total a b with h | h
  · rw [Nat.dist_eq_sub_of_le h, Nat.cast_sub h, abs_sub_comm, abs_of_nonneg]
    rw [sub_nonneg]
    exact_mod_cast h
  · rw [Nat.dist_eq_sub_of_le_right h, Nat.cast_sub h, abs_of_nonneg]
    rw [sub_nonneg]
    exact_mod_cast h

/-- **The rank of a decimal** is the one nearest to it, of two equally near ones the even one. -/
theorem rank_eq_iff {d : Decimal} {rank : Nat} : d.rank = rank ↔ d.RoundsTo rank := by
  obtain ⟨num, den, hden, hrank, hvalue⟩ := d.exists_quotient
  have hunit : 0 < (den * grainsPerUnit : ℚ) := by
    exact_mod_cast Nat.mul_pos hden grainsPerUnit_pos
  have hdistance : ∀ other, |d.value - magnitude other| =
      num.dist (grains other * den) / (den * grainsPerUnit) := by
    intro other
    have hcommon : magnitude other = (grains other * den : Nat) / (den * grainsPerUnit) := by
      rw [magnitude, Nat.cast_mul, mul_comm (grains other : ℚ), mul_div_mul_left]
      exact_mod_cast hden.ne'
    rw [hvalue, hcommon, ← sub_div, abs_div, abs_of_pos hunit, abs_cast_sub]
  have hscale := strictMono_grains.mul_const hden
  have hnearest := nearestEven_nearestRank hden num
  rw [hrank]
  constructor
  · rintro rfl
    refine ⟨fun other => ?_, fun other hne htie => hnearest.even other hne ?_⟩
    · rw [hdistance, hdistance, div_le_div_iff_of_pos_right hunit]
      exact_mod_cast hnearest.nearest other
    · rw [hdistance, hdistance, div_left_inj' hunit.ne'] at htie
      exact_mod_cast htie
  · intro h
    refine hnearest.unique hscale ⟨fun other => ?_, fun other hne htie => h.even other hne ?_⟩
    · have hother := h.nearest other
      rw [hdistance, hdistance, div_le_div_iff_of_pos_right hunit] at hother
      exact_mod_cast hother
    · rw [hdistance, hdistance, htie]

end Decimal

namespace Number

open Decimal

theorem value_exactDecimal (rank : Nat) : (exactDecimal rank).value = magnitude rank := by
  show value ⟨exactDigits rank, -((1074 : Nat) : Int)⟩ = _
  rw [exactDigits, magnitude, grainsPerUnit]
  -- nothing depends on the exponent, and its powers are not to be computed
  generalize 1074 = n
  have htwo : ((1 <<< n : Nat) : ℚ) ≠ 0 := by exact_mod_cast (one_shiftLeft_pos n).ne'
  have hten : (10 : ℚ) ^ n = Nat.pow 5 n * (1 <<< n : Nat) := by
    have hproduct := cast_tenPow n
    rw [tenPow_eq, zpow_natCast] at hproduct
    rw [← hproduct, Nat.cast_mul]
  have hfive : ((Nat.pow 5 n : Nat) : ℚ) ≠ 0 := by
    exact_mod_cast (Nat.pow_pos (by decide) : 0 < 5 ^ n).ne'
  rw [value, zpow_neg, zpow_natCast, hten, Nat.cast_mul]
  field_simp

end Number

end LoxCalc
