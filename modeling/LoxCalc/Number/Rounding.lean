/-!
# Rounding a quotient

All rounding of the library goes through `roundDiv`: the nearest integer to a
quotient of natural numbers, and of two equally near ones the even one.  It
serves the arithmetic of numbers as well as the digits that are printed.
-/

namespace LoxCalc

/-- The integer nearest to `num / den`; of two equally near ones, the even one. -/
def roundDiv (num den : Nat) : Nat :=
  let quotient := num / den
  let rest := num % den
  if 2 * rest < den then quotient
  else if 2 * rest = den then quotient + quotient % 2
  else quotient + 1

/-- **A quotient without remainder is not moved.** -/
theorem roundDiv_mul_left {den : Nat} (h : 0 < den) (k : Nat) : roundDiv (k * den) den = k := by
  simp [roundDiv, Nat.mul_div_cancel k h, h]

theorem roundDiv_one (n : Nat) : roundDiv n 1 = n := by
  simpa using roundDiv_mul_left Nat.one_pos n

end LoxCalc
