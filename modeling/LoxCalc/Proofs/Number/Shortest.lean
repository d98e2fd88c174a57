import Mathlib.Data.Nat.Dist
import Mathlib.Tactic.Linarith
import LoxCalc.Proofs.Number.Reading

/-!
# The shortest decimal

The digits of a number are searched for on grids of 1, 2, … 17 digits, and on each grid only the
two neighbours of the exact magnitude are tried.  Two things carry the search.

* **No decimal with as many digits as a grid, or fewer, is between its neighbours**
  (`value_le_or_ge`).  So if such a decimal is read as a rank, the neighbour on its side of the
  magnitude is nearer and is read as the rank too, since reading is monotone (`exists_neighbour`).
* **Seventeen digits are enough** (`exists_neighbour_longestShortest`): the nearer neighbour is off
  by less than half a part in `10 ^ 16`, and other magnitudes by at least a part in `2 ^ 53`.

So the decimal that is found identifies its rank with the fewest digits, and of all decimals with
so few digits that do, none is nearer to the magnitude (`isShortest_shortest`).
-/

namespace LoxCalc

namespace Decimal

open Number

/-! ### The number of digits -/

theorem length_digitText_pos (d : Decimal) : 0 < d.digitText.length :=
  Nat.length_toDigits_pos

theorem length_digitText_le_iff {d : Decimal} {n : Nat} (hn : 0 < n) :
    d.digitText.length ≤ n ↔ d.digits < tenPow n :=
  Nat.length_toDigits_le_iff (by decide) hn

theorem digits_stripZeros_le (d : Decimal) : d.stripZeros.digits ≤ d.digits := by
  fun_induction stripZeros d with
  | case1 d h ih => exact Nat.le_trans ih (Nat.div_le_self _ _)
  | case2 d h => exact Nat.le_refl _

/-- A power of ten loses its zeros, so that it has no more digits than the numbers below it. -/
theorem length_stripZeros_le {d : Decimal} {n : Nat} (hn : 0 < n) (h : d.digits ≤ tenPow n) :
    d.stripZeros.digitText.length ≤ n := by
  rw [length_digitText_le_iff hn]
  rcases Nat.lt_or_eq_of_le h with hlt | heq
  · exact Nat.lt_of_le_of_lt d.digits_stripZeros_le hlt
  · obtain ⟨n, rfl⟩ : ∃ m, n = m + 1 := ⟨n - 1, by omega⟩
    have hpos := tenPow_pos n
    have hzero : d.digits ≠ 0 ∧ d.digits % 10 = 0 := by
      rw [heq, tenPow_succ]
      omega
    have hstrip := digits_stripZeros_le ⟨d.digits / 10, d.exponent + 1⟩
    rw [stripZeros, dif_pos hzero]
    refine Nat.lt_of_le_of_lt hstrip ?_
    show d.digits / 10 < _
    rw [heq, tenPow_succ]
    omega

end Decimal

namespace Number

open Decimal

/-! ### The grids -/

/-- A point of the grid on which `dropped` digits of the exact decimals are left out. -/
def gridPoint (dropped digits : Nat) : Decimal := ⟨digits, dropped + finestExponent⟩

theorem gridPoint_eq (dropped digits : Nat) :
    (gridPoint dropped digits).value = value ⟨digits * tenPow dropped, finestExponent⟩ ∧
      (gridPoint dropped digits).rank = rank ⟨digits * tenPow dropped, finestExponent⟩ := by
  rw [gridPoint, Int.add_comm]
  exact ⟨value_add _ _ _, rank_add _ _ _⟩

theorem rank_finest (digits : Nat) :
    rank ⟨digits, finestExponent⟩ = nearestRank digits (Nat.pow 5 1074) := by
  show nearestRank (digits * grainsPerUnit) (tenPow 1074) = _
  rw [grainsPerUnit]
  -- nothing depends on the exponent, and its powers are not to be computed
  generalize 1074 = n
  rw [tenPow_eq, nearestRank_mul]
  rw [Nat.one_shiftLeft]
  exact Nat.two_pow_pos n

theorem abs_value_sub (digits digits' : Nat) (exponent : Int) :
    |value ⟨digits, exponent⟩ - value ⟨digits', exponent⟩| =
      digits.dist digits' * (10 : ℚ) ^ exponent := by
  have hpos : (0 : ℚ) < 10 ^ exponent := zpow_pos (by norm_num) exponent
  rw [value, value, ← sub_mul, abs_mul, abs_of_pos hpos, abs_cast_sub]

/-- Whether a number is one of the two around the exact digits on a grid. -/
def Neighbour (rank dropped digits : Nat) : Prop :=
  digits = exactDigits rank / tenPow dropped ∨ digits = exactDigits rank / tenPow dropped + 1

theorem exists_neighbours (rank dropped : Nat) : ∃ a b,
    neighbours (exactDigits rank) (tenPow dropped) = [a, b] ∧
      (∀ digits, Neighbour rank dropped digits ↔ digits = a ∨ digits = b) ∧
      ∀ digits, Neighbour rank dropped digits →
        (a * tenPow dropped).dist (exactDigits rank) ≤
          (digits * tenPow dropped).dist (exactDigits rank) := by
  simp only [Neighbour]
  generalize exactDigits rank = n
  generalize tenPow dropped = unit
  have hdivision : n / unit * unit + n % unit = n := Nat.div_add_mod' n unit
  have habove : (n / unit + 1) * unit = n / unit * unit + unit := Nat.succ_mul _ _
  by_cases h : 2 * (n % unit) < unit ∨ 2 * (n % unit) = unit ∧ n / unit % 2 = 0
  · refine ⟨n / unit, n / unit + 1, by simp only [neighbours, if_pos h], fun _ => Iff.rfl, ?_⟩
    rintro digits (rfl | rfl)
    · exact Nat.le_refl _
    · simp only [habove, Nat.dist]
      omega
  · refine ⟨n / unit + 1, n / unit, by simp only [neighbours, if_neg h], fun _ => or_comm, ?_⟩
    rintro digits (rfl | rfl)
    · simp only [habove, Nat.dist]
      omega
    · exact Nat.le_refl _

/-- What is found on a grid: a neighbour that reads back, and no farther than the other if that
does so too. -/
theorem onGrid?_eq_some {rank size count : Nat} {d : Decimal}
    (h : onGrid? rank size count = some d) : ∃ digits, Neighbour rank (size - count) digits ∧
      d = gridPoint (size - count) digits ∧
      ∀ other, Neighbour rank (size - count) other →
        (gridPoint (size - count) other).rank = rank →
          (digits * tenPow (size - count)).dist (exactDigits rank) ≤
            (other * tenPow (size - count)).dist (exactDigits rank) := by
  obtain ⟨a, b, hneighbours, hmem, hnearer⟩ := exists_neighbours rank (size - count)
  rw [onGrid?, hneighbours] at h
  rcases List.find?_cons_eq_some.mp h with ⟨ha, rfl⟩ | ⟨ha, h⟩
  · exact ⟨a, (hmem a).mpr (Or.inl rfl), rfl, fun other hother _ => hnearer other hother⟩
  · have hb := List.mem_of_find?_eq_some h
    rw [List.map_cons, List.map_nil, List.mem_singleton] at hb
    refine ⟨b, (hmem b).mpr (Or.inr rfl), hb, fun other hother hread => ?_⟩
    rcases (hmem other).mp hother with rfl | rfl
    · have hno : (gridPoint (size - count) other).rank ≠ rank := by simpa [gridPoint] using ha
      exact absurd hread hno
    · exact Nat.le_refl _

theorem exists_onGrid? {rank size count digits : Nat}
    (hneighbour : Neighbour rank (size - count) digits)
    (hrank : (gridPoint (size - count) digits).rank = rank) :
    ∃ d, onGrid? rank size count = some d := by
  obtain ⟨a, b, hneighbours, hmem, -⟩ := exists_neighbours rank (size - count)
  have hdigits : digits ∈ [a, b] := by simpa using (hmem digits).mp hneighbour
  rw [← Option.isSome_iff_exists, onGrid?, hneighbours, List.find?_isSome]
  exact ⟨gridPoint (size - count) digits,
    List.mem_map_of_mem (f := gridPoint (size - count)) hdigits, by simpa using hrank⟩

/-! ### What a grid misses -/

theorem exactDigits_pos {rank : Nat} (hrank : rank ≠ 0) : 0 < exactDigits rank := by
  have hgrains := strictMono_grains (Nat.pos_of_ne_zero hrank)
  have hpos : 0 < grains rank := by omega
  rw [exactDigits]
  generalize 1074 = n
  exact Nat.mul_pos hpos (Nat.pow_pos (by decide))

/-- **A decimal with at most as many digits as a grid keeps is not between its neighbours.** -/
theorem value_le_or_ge {count digits : Nat} (dropped : Nat) {d : Decimal}
    (hd : d.digits < tenPow count) (hcount : 0 < count) (hdigits : tenPow (count - 1) ≤ digits) :
    d.value ≤ (gridPoint dropped digits).value ∨
      (gridPoint dropped (digits + 1)).value ≤ d.value := by
  obtain ⟨m, exponent⟩ := d
  rw [gridPoint, gridPoint]
  rcases le_or_gt (dropped + finestExponent) exponent with hle | hlt
  · obtain ⟨n, rfl⟩ := Int.exists_add_of_le hle
    rw [value_add, value_le_value, value_le_value]
    omega
  · -- the digits of the decimal are too few to reach the grid from a finer unit
    obtain ⟨n, hn⟩ := Int.exists_add_of_le (Int.add_one_le_of_lt hlt)
    have hexponent : (dropped : Int) + finestExponent = exponent + (n + 1 : Nat) := by omega
    rw [hexponent, value_add, value_le_value]
    refine Or.inl (Nat.le_of_lt (Nat.lt_of_lt_of_le hd ?_))
    have hone : tenPow count = tenPow (count - 1) * tenPow 1 := by
      rw [← tenPow_add, Nat.sub_add_cancel hcount]
    rw [hone, tenPow_add]
    exact Nat.mul_le_mul hdigits (Nat.le_mul_of_pos_left _ (tenPow_pos n))

theorem value_below (rank dropped : Nat) :
    (gridPoint dropped (exactDigits rank / tenPow dropped)).value ≤ magnitude rank := by
  rw [← value_exactDecimal, (gridPoint_eq _ _).1, exactDecimal, value_le_value]
  exact Nat.div_mul_le_self _ _

theorem value_above (rank dropped : Nat) :
    magnitude rank ≤ (gridPoint dropped (exactDigits rank / tenPow dropped + 1)).value := by
  have hdivision := Nat.div_add_mod' (exactDigits rank) (tenPow dropped)
  have hrest := Nat.mod_lt (exactDigits rank) (tenPow_pos dropped)
  rw [← value_exactDecimal, (gridPoint_eq _ _).1, exactDecimal, value_le_value, Nat.succ_mul]
  omega

theorem rank_le_of_value_le {d : Decimal} {rank : Nat} (h : d.value ≤ magnitude rank) :
    d.rank ≤ rank := by
  rw [← value_exactDecimal] at h
  have hexact := rank_mono h
  rwa [rank_exactDecimal] at hexact

theorem le_rank_of_le_value {d : Decimal} {rank : Nat} (h : magnitude rank ≤ d.value) :
    rank ≤ d.rank := by
  rw [← value_exactDecimal] at h
  have hexact := rank_mono h
  rwa [rank_exactDecimal] at hexact

/-- A number that is nearer to the exact digits than half of one part in `10 ^ 16` reads back. -/
theorem rank_of_dist_le {rank digits unit : Nat} (hunit : 0 < unit)
    (hlow : tenPow 16 * unit ≤ exactDigits rank)
    (hdist : 2 * digits.dist (exactDigits rank) ≤ unit) :
    Decimal.rank ⟨digits, finestExponent⟩ = rank := by
  obtain ⟨parts, hparts⟩ : ∃ parts, parts = Nat.pow 5 1074 := ⟨_, rfl⟩
  have hpos : 0 < parts := by
    rw [hparts]
    generalize 1074 = n
    exact Nat.pow_pos (by decide)
  have hexact : exactDigits rank = grains rank * parts := by rw [hparts, exactDigits]
  rw [rank_finest, ← hparts]
  refine nearestRank_eq hpos fun other hother => ?_
  have hspacing := Nat.mul_le_mul_right parts (grains_le_dist hother)
  rw [Nat.mul_assoc, ← Nat.dist_mul_right, ← hexact] at hspacing
  rw [← hexact]
  have hten : tenPow 16 = 10000000000000000 := rfl
  have htwice : 2 * binade = 9007199254740992 := rfl
  rw [hten] at hlow
  rw [htwice] at hspacing
  have htriangle := Nat.dist.triangle_inequality (exactDigits rank) digits (grains other * parts)
  rw [Nat.dist_comm (exactDigits rank) digits] at htriangle
  omega

theorem abs_gridPoint_sub (rank dropped digits : Nat) :
    |(gridPoint dropped digits).value - magnitude rank| =
      (digits * tenPow dropped).dist (exactDigits rank) * (10 : ℚ) ^ finestExponent := by
  rw [← value_exactDecimal, (gridPoint_eq _ _).1, exactDecimal, abs_value_sub]

/-- What is found first on the grids is found on none of more digits than any grid that is hit. -/
theorem findSome?_range {α : Type} {f : Nat → Option α} {n i : Nat} (hi : i < n)
    (hit : ∃ x, f i = some x) :
    ∃ k x, k ≤ i ∧ f k = some x ∧ (List.range n).findSome? f = some x := by
  induction n with
  | zero => omega
  | succ n ih =>
    rw [List.range_succ, List.findSome?_append]
    by_cases hlt : i < n
    · obtain ⟨k, x, hk, hx, hfound⟩ := ih hlt
      exact ⟨k, x, hk, hx, by rw [hfound, Option.some_or]⟩
    · obtain rfl : i = n := by omega
      obtain ⟨x, hx⟩ := hit
      cases hfound : (List.range i).findSome? f with
      | none => exact ⟨i, x, Nat.le_refl i, hx, by simp [hx]⟩
      | some y =>
        obtain ⟨k, hk, hy⟩ := List.exists_of_findSome?_eq_some hfound
        exact ⟨k, y, Nat.le_of_lt (List.mem_range.mp hk), hy, rfl⟩

/-! ### The search -/

section Search

variable {rank size : Nat} (hrank : rank ≠ 0) (hsize : size = (exactDecimal rank).digitText.length)
include hrank hsize

theorem exactDigits_bounds :
    0 < size ∧ tenPow (size - 1) ≤ exactDigits rank ∧ exactDigits rank < tenPow size := by
  have hpos : 0 < size := hsize ▸ length_digitText_pos _
  have hlt : (exactDecimal rank).digits < tenPow size := by
    rw [← length_digitText_le_iff hpos, hsize]
  refine ⟨hpos, ?_, hlt⟩
  by_cases hone : size = 1
  · rw [hone, show tenPow (1 - 1) = 1 from rfl]
    exact exactDigits_pos hrank
  · refine Nat.le_of_not_lt fun hlt => ?_
    have hshort := (length_digitText_le_iff (d := exactDecimal rank) (by omega)).mpr hlt
    omega

/-- **A decimal that reads back has a neighbour that does**, on the grid with as many digits, and
that is no farther. -/
theorem exists_neighbour {count : Nat} (hcount : 0 < count) (hle : count ≤ size) {d : Decimal}
    (hd : d.rank = rank) (hdigits : d.digits < tenPow count) :
    ∃ digits, Neighbour rank (size - count) digits ∧
      (gridPoint (size - count) digits).rank = rank ∧
      |(gridPoint (size - count) digits).value - magnitude rank| ≤ |d.value - magnitude rank| := by
  obtain ⟨-, hlow, -⟩ := exactDigits_bounds hrank hsize
  have hbelow := value_below rank (size - count)
  have habove := value_above rank (size - count)
  have hkept : tenPow (count - 1) ≤ exactDigits rank / tenPow (size - count) := by
    rw [Nat.le_div_iff_mul_le (tenPow_pos _), ← tenPow_add]
    rwa [show count - 1 + (size - count) = size - 1 by omega]
  rcases value_le_or_ge (size - count) hdigits hcount hkept with h | h
  · have hread := rank_mono h
    rw [hd] at hread
    refine ⟨_, Or.inl rfl, Nat.le_antisymm (rank_le_of_value_le hbelow) hread, ?_⟩
    rw [abs_of_nonpos (by linarith), abs_of_nonpos (by linarith)]
    linarith
  · have hread := rank_mono h
    rw [hd] at hread
    refine ⟨_, Or.inr rfl, Nat.le_antisymm hread (le_rank_of_le_value habove), ?_⟩
    rw [abs_of_nonneg (by linarith), abs_of_nonneg (by linarith)]
    linarith

/-- **Seventeen digits are enough.** -/
theorem exists_neighbour_longestShortest (hlong : longestShortest ≤ size) :
    ∃ digits, Neighbour rank (size - longestShortest) digits ∧
      (gridPoint (size - longestShortest) digits).rank = rank := by
  obtain ⟨a, b, -, hmem, hnearest⟩ := exists_neighbours rank (size - longestShortest)
  obtain ⟨-, hlow, -⟩ := exactDigits_bounds hrank hsize
  have hbelow := hnearest _ (Or.inl rfl)
  have habove := hnearest _ (Or.inr rfl)
  refine ⟨a, (hmem a).mpr (Or.inl rfl), ?_⟩
  rw [(gridPoint_eq _ _).2]
  rw [Nat.succ_mul] at habove
  have hleading : tenPow 16 * tenPow (size - longestShortest) ≤ exactDigits rank := by
    rw [longestShortest] at hlong ⊢
    rwa [← tenPow_add, show 16 + (size - 17) = size - 1 by omega]
  have hpos := tenPow_pos (size - longestShortest)
  generalize tenPow (size - longestShortest) = unit at *
  have hdivision := Nat.div_add_mod' (exactDigits rank) unit
  have hrest := Nat.mod_lt (exactDigits rank) hpos
  refine rank_of_dist_le hpos hleading ?_
  simp only [Nat.dist] at hbelow habove ⊢
  omega

/-- The search ends on a grid of at most as many digits as any grid that is hit. -/
theorem shortest_eq {count : Nat} (hcount : 0 < count) (hle : count ≤ longestShortest)
    (hit : ∃ d, onGrid? rank size count = some d) :
    ∃ k d, 0 < k ∧ k ≤ count ∧ onGrid? rank size k = some d ∧ shortest rank = d.stripZeros := by
  obtain ⟨i, rfl⟩ : ∃ i, count = i + 1 := ⟨count - 1, by omega⟩
  obtain ⟨k, d, hk, hd, hfound⟩ :=
    findSome?_range (f := fun k => onGrid? rank size (k + 1)) hle hit
  refine ⟨k + 1, d, Nat.succ_pos k, by omega, hd, ?_⟩
  simp only [shortest, if_neg hrank, ← hsize, hfound, Option.getD_some]

/-- **A decimal that reads back has a grid that is hit**, of no more digits. -/
theorem exists_hit {d : Decimal} (hd : d.rank = rank) :
    ∃ count, 0 < count ∧ count ≤ d.digitText.length ∧ count ≤ size ∧ count ≤ longestShortest ∧
      ∃ found, onGrid? rank size count = some found := by
  have hpos := d.length_digitText_pos
  obtain ⟨hsizepos, -, -⟩ := exactDigits_bounds hrank hsize
  have hneighbour : ∀ {d : Decimal} {count : Nat}, d.rank = rank → d.digitText.length ≤ count →
      0 < count → count ≤ size → ∃ found, onGrid? rank size count = some found := by
    intro d count hd hlength hcount hle
    obtain ⟨digits, hnear, hread, -⟩ := exists_neighbour hrank hsize hcount hle hd
      ((length_digitText_le_iff hcount).mp hlength)
    exact exists_onGrid? hnear hread
  by_cases hlong : longestShortest ≤ d.digitText.length ∧ longestShortest ≤ size
  · obtain ⟨digits, hnear, hread⟩ := exists_neighbour_longestShortest hrank hsize hlong.2
    exact ⟨longestShortest, by decide, hlong.1, hlong.2, Nat.le_refl _, exists_onGrid? hnear hread⟩
  · by_cases hle : d.digitText.length ≤ size
    · exact ⟨_, hpos, Nat.le_refl _, hle, by omega, hneighbour hd (Nat.le_refl _) hpos hle⟩
    · exact ⟨size, hsizepos, by omega, Nat.le_refl _, by omega,
        hneighbour (rank_exactDecimal rank) (Nat.le_of_eq hsize.symm) hsizepos (Nat.le_refl _)⟩

/-- **Where the shortest decimal is from**: a grid of no more digits than any decimal that reads
back, on which no point that reads back is nearer. -/
theorem exists_grid {d : Decimal} (hd : d.rank = rank) :
    ∃ count, 0 < count ∧ count ≤ d.digitText.length ∧ count ≤ size ∧
      (shortest rank).digitText.length ≤ count ∧
      ∀ near, Neighbour rank (size - count) near → (gridPoint (size - count) near).rank = rank →
        |(shortest rank).value - magnitude rank| ≤
          |(gridPoint (size - count) near).value - magnitude rank| := by
  obtain ⟨limit, hlimit, hlength, hlimitsize, hlongest, hit⟩ := exists_hit hrank hsize hd
  obtain ⟨count, found, hcount, hle, hfound, hshortest⟩ :=
    shortest_eq hrank hsize hlimit hlongest hit
  obtain ⟨digits, hneighbour, rfl, hnearest⟩ := onGrid?_eq_some hfound
  refine ⟨count, hcount, by omega, by omega, ?_, fun near hnear hread => ?_⟩
  · have hkept : exactDigits rank / tenPow (size - count) < tenPow count := by
      rw [Nat.div_lt_iff_lt_mul (tenPow_pos _), ← tenPow_add,
        show count + (size - count) = size by omega]
      exact (exactDigits_bounds hrank hsize).2.2
    have hdigits : digits ≤ tenPow count := by
      rw [Neighbour] at hneighbour
      omega
    rw [hshortest]
    exact length_stripZeros_le hcount hdigits
  · rw [hshortest, value_stripZeros, abs_gridPoint_sub, abs_gridPoint_sub]
    exact mul_le_mul_of_nonneg_right (Nat.cast_le.mpr (hnearest near hnear hread))
      (zpow_pos (by norm_num) _).le

end Search

end Number

/-! ### The shortest decimal -/

open Number

/-- Whether a decimal identifies a rank, no decimal with fewer digits does so, and none with as
many is nearer to the value of the rank. -/
structure Decimal.IsShortest (rank : Nat) (d : Decimal) : Prop where
  identifies : d.RoundsTo rank
  fewest : ∀ other : Decimal, other.RoundsTo rank → d.digitText.length ≤ other.digitText.length
  nearest : ∀ other : Decimal, other.RoundsTo rank →
    other.digitText.length = d.digitText.length →
      |d.value - magnitude rank| ≤ |other.value - magnitude rank|

/-- **The decimal that is written for a rank is a shortest one.** -/
theorem Number.isShortest_shortest (rank : Nat) : (shortest rank).IsShortest rank := by
  have hidentifies : (shortest rank).RoundsTo rank := Decimal.rank_eq_iff.mp (rank_shortest rank)
  by_cases hrank : rank = 0
  · subst hrank
    have hzero : |(shortest 0).value - magnitude 0| = 0 := by
      rw [shortest, if_pos rfl, Decimal.value, magnitude]
      simp [grains, binade]
    refine ⟨hidentifies, fun other _ => other.length_digitText_pos, fun other _ _ => ?_⟩
    rw [hzero]
    exact abs_nonneg _
  · obtain ⟨size, hsize⟩ : ∃ size, size = (exactDecimal rank).digitText.length := ⟨_, rfl⟩
    refine ⟨hidentifies, fun other hother => ?_, fun other hother hlength => ?_⟩
    · obtain ⟨count, -, hle, -, hshort, -⟩ :=
        exists_grid hrank hsize (Decimal.rank_eq_iff.mpr hother)
      exact Nat.le_trans hshort hle
    · have hread := Decimal.rank_eq_iff.mpr hother
      obtain ⟨count, hcount, hle, hsmall, hshort, hnearest⟩ := exists_grid hrank hsize hread
      have hdigits : other.digits < Decimal.tenPow count := by
        rw [← Decimal.length_digitText_le_iff hcount]
        omega
      obtain ⟨near, hneighbour, hnear, hdistance⟩ :=
        exists_neighbour hrank hsize hcount hsmall hread hdigits
      exact le_trans (hnearest near hneighbour hnear) hdistance

end LoxCalc
