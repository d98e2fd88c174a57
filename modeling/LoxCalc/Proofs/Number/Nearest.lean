import Mathlib.Algebra.Order.GroupWithZero.Basic
import Mathlib.Algebra.Order.Ring.Nat
import Mathlib.Data.Nat.Dist
import LoxCalc.Number.Basic

/-!
# The nearest rank

To round is to choose, among the points of a scale, the one nearest to a target, and of two that
are equally near the one with the even number.  On a scale that increases there is one choice for a
target (`NearestEven.unique`), and it does not go back when the target goes on (`NearestEven.mono`).

A quotient of natural numbers is rounded so on the multiples of the denominator, and so is a
quotient of grains on the magnitudes, although the rounding cuts the quotient to 53 digits first:
**in the binade of the quotient and above it every magnitude is a multiple of the unit of the cut,
and the magnitudes below are no nearer than the lowest of the binade** (`nearestEven_nearestRank`).
-/

namespace LoxCalc

/-! ### Choosing the nearest point -/

/-- Whether `choice` is the number of the point nearest to the target, or even if there are two. -/
structure NearestEven (scale : Nat → Nat) (target choice : Nat) : Prop where
  nearest : ∀ other, target.dist (scale choice) ≤ target.dist (scale other)
  even : ∀ other, other ≠ choice →
    target.dist (scale other) = target.dist (scale choice) → choice % 2 = 0

namespace NearestEven

variable {scale : Nat → Nat} {target target' a b : Nat}

theorem of_lt (h : ∀ other, other ≠ a → target.dist (scale a) < target.dist (scale other)) :
    NearestEven scale target a where
  nearest other := by
    by_cases heq : other = a
    · rw [heq]
    · exact Nat.le_of_lt (h other heq)
  even other hne htie := by
    have := h other hne
    omega

/-- Of two nearest points none is the lower one: both are even, and the point between them would
be nearer. -/
theorem not_lt (hscale : StrictMono scale) (ha : NearestEven scale target a)
    (hb : NearestEven scale target b) : ¬ a < b := by
  intro hlt
  have htie : target.dist (scale b) = target.dist (scale a) :=
    Nat.le_antisymm (hb.nearest a) (ha.nearest b)
  have haeven := ha.even b (by omega) htie
  have hbeven := hb.even a (by omega) htie.symm
  have hlow : scale a < scale (a + 1) := hscale (by omega)
  have hhigh : scale (a + 1) < scale b := hscale (by omega)
  have hbetween := ha.nearest (a + 1)
  simp only [Nat.dist] at htie hbetween
  omega

theorem unique (hscale : StrictMono scale) (ha : NearestEven scale target a)
    (hb : NearestEven scale target b) : a = b := by
  have hab := ha.not_lt hscale hb
  have hba := hb.not_lt hscale ha
  omega

/-- **A greater target has no lower choice.** -/
theorem mono (hscale : StrictMono scale) (h : target ≤ target') (ha : NearestEven scale target a)
    (hb : NearestEven scale target' b) : a ≤ b := by
  by_contra hlt
  have hpoints : scale b < scale a := hscale (by omega)
  have hlow := ha.nearest b
  have hhigh := hb.nearest a
  -- both targets are in the middle of the two points
  have htargets : target = target' := by
    simp only [Nat.dist] at hlow hhigh
    omega
  subst htargets
  have := ha.unique hscale hb
  omega

end NearestEven

/-- **A quotient is rounded to the nearest integer**, of two equally near ones to the even one. -/
theorem nearestEven_roundDiv {den : Nat} (hden : 0 < den) (num : Nat) :
    NearestEven (· * den) num (roundDiv num den) := by
  have hdivision : num / den * den + num % den = num := Nat.div_add_mod' num den
  have hrest : num % den < den := Nat.mod_lt _ hden
  have hchoice : roundDiv num den = num / den ∧
        (2 * (num % den) < den ∨ 2 * (num % den) = den ∧ num / den % 2 = 0) ∨
      roundDiv num den = num / den + 1 ∧
        (den < 2 * (num % den) ∨ 2 * (num % den) = den ∧ num / den % 2 = 1) := by
    simp only [roundDiv]
    split
    · omega
    · split <;> omega
  -- the multiples below the quotient and the multiples above it
  have hside : ∀ k, k < num / den ∧ k * den + den ≤ num / den * den ∨ k = num / den ∨
      k = num / den + 1 ∧ k * den = num / den * den + den ∨
      num / den + 1 < k ∧ num / den * den + den + den ≤ k * den := by
    intro k
    rcases Nat.lt_trichotomy k (num / den) with hk | rfl | hk
    · have := Nat.mul_le_mul_right den hk
      rw [Nat.succ_mul] at this
      exact Or.inl ⟨hk, this⟩
    · exact Or.inr (Or.inl rfl)
    · rcases Nat.eq_or_lt_of_le hk with rfl | hk
      · exact Or.inr (Or.inr (Or.inl ⟨rfl, Nat.succ_mul _ _⟩))
      · have := Nat.mul_le_mul_right den hk
        rw [Nat.succ_mul, Nat.succ_mul] at this
        exact Or.inr (Or.inr (Or.inr ⟨hk, this⟩))
  have habove : (num / den + 1) * den = num / den * den + den := Nat.succ_mul _ _
  generalize num / den = q at *
  generalize num % den = rest at *
  constructor
  · intro k
    simp only [Nat.dist]
    rcases hchoice with ⟨hc, hc'⟩ | ⟨hc, hc'⟩
    · rw [hc]
      rcases hside k with h | rfl | h | h <;> omega
    · rw [hc, habove]
      rcases hside k with h | rfl | h | h <;> omega
  · intro k hk htie
    simp only [Nat.dist] at htie
    rcases hchoice with ⟨hc, hc'⟩ | ⟨hc, hc'⟩
    · rw [hc] at hk htie ⊢
      rcases hside k with h | rfl | h | h <;> omega
    · rw [hc, habove] at htie
      rw [hc] at hk ⊢
      rcases hside k with h | rfl | h | h <;> omega

/-! ### Magnitudes -/

namespace Number

theorem binade_pos : 0 < binade := by decide

def spacing (rank : Nat) : Nat := 1 <<< (rank / binade - 1)

theorem one_shiftLeft_pos (s : Nat) : 0 < 1 <<< s := by
  rw [Nat.one_shiftLeft]
  exact Nat.two_pow_pos s

theorem spacing_pos (rank : Nat) : 0 < spacing rank := one_shiftLeft_pos _

theorem one_shiftLeft_succ (s : Nat) : 1 <<< (s + 1) = 2 * (1 <<< s) :=
  Nat.shiftLeft_succ 1 s

/-- In a binade the magnitudes are the multiples of its spacing, the end of it included. -/
theorem grains_add {c s : Nat} (h : binade ≤ c ∨ s = 0) (hc : c ≤ 2 * binade) :
    grains (c + s * binade) = c * (1 <<< s) := by
  have hwithin : ∀ {f s : Nat}, f < binade →
      grains (binade + f + s * binade) = (binade + f) * (1 <<< s) := by
    intro f s hf
    have hrank : binade + f + s * binade = f + (s + 1) * binade := by
      rw [Nat.succ_mul]
      omega
    have hlater : ¬ binade + f + s * binade < binade := by omega
    have hdiv : (binade + f + s * binade) / binade = s + 1 := by
      rw [hrank, Nat.add_mul_div_right _ _ binade_pos, Nat.div_eq_of_lt hf, Nat.zero_add]
    have hmod : (binade + f + s * binade) % binade = f := by
      rw [hrank, Nat.add_mul_mod_self_right, Nat.mod_eq_of_lt hf]
    rw [grains, if_neg hlater, hdiv, hmod, Nat.shiftLeft_eq, Nat.one_shiftLeft]
    rfl
  by_cases hlow : c < binade
  · obtain rfl : s = 0 := by omega
    rw [Nat.zero_mul, Nat.add_zero, grains, if_pos hlow]
    exact (Nat.mul_one c).symm
  · rcases Nat.eq_or_lt_of_le hc with rfl | hhigh
    · have hnext := hwithin (f := 0) (s := s + 1) binade_pos
      rw [Nat.add_zero, Nat.succ_mul, one_shiftLeft_succ] at hnext
      rw [show 2 * binade + s * binade = binade + (s * binade + binade) by omega, hnext,
        Nat.mul_comm 2 binade, Nat.mul_assoc]
    · obtain ⟨f, rfl⟩ := Nat.exists_eq_add_of_le (Nat.le_of_not_lt hlow)
      exact hwithin (by omega)

theorem exists_place (rank : Nat) : ∃ c s, rank = c + s * binade ∧ c < 2 * binade ∧
    (binade ≤ c ∨ s = 0) ∧ s = rank / binade - 1 := by
  have hdivision : rank / binade * binade + rank % binade = rank := Nat.div_add_mod' _ _
  have hrest : rank % binade < binade := Nat.mod_lt _ binade_pos
  cases hs : rank / binade with
  | zero =>
    rw [hs, Nat.zero_mul] at hdivision
    exact ⟨rank, 0, by omega, by omega, Or.inr rfl, rfl⟩
  | succ s =>
    rw [hs, Nat.succ_mul] at hdivision
    exact ⟨binade + rank % binade, s, by omega, by omega, Or.inl (by omega), rfl⟩

theorem grains_succ (rank : Nat) : grains (rank + 1) = grains rank + spacing rank := by
  obtain ⟨c, s, hrank, hc, hlow, hs⟩ := exists_place rank
  have hnext : binade ≤ c + 1 ∨ s = 0 := by omega
  rw [spacing, ← hs, hrank, grains_add hlow (by omega), Nat.add_right_comm,
    grains_add hnext (by omega), Nat.succ_mul]

theorem strictMono_grains : StrictMono grains := by
  refine strictMono_nat_of_lt_succ fun rank => ?_
  rw [grains_succ]
  exact Nat.lt_add_of_pos_right (spacing_pos rank)

/-- Neighbouring magnitudes are not closer than 53 binary digits can tell. -/
theorem grains_succ_le (rank : Nat) : grains (rank + 1) ≤ 2 * binade * spacing rank := by
  obtain ⟨c, s, hrank, hc, hlow, hs⟩ := exists_place rank
  have hnext : binade ≤ c + 1 ∨ s = 0 := by omega
  rw [spacing, ← hs, hrank, Nat.add_right_comm, grains_add hnext (by omega)]
  exact Nat.mul_le_mul_right _ (by omega)

/-- **The distance of a magnitude to another is at least one part in `2 ^ 53` of it.** -/
theorem grains_le_dist {rank other : Nat} (h : other ≠ rank) :
    grains rank ≤ 2 * binade * (grains rank).dist (grains other) := by
  rcases Nat.lt_or_gt_of_ne h with hlt | hgt
  · obtain ⟨previous, rfl⟩ : ∃ previous, rank = previous + 1 := ⟨rank - 1, by omega⟩
    have hother : grains other ≤ grains previous := strictMono_grains.monotone (by omega)
    have hspacing : spacing previous ≤ (grains (previous + 1)).dist (grains other) := by
      rw [grains_succ, Nat.dist]
      omega
    exact Nat.le_trans (grains_succ_le previous) (Nat.mul_le_mul_left _ hspacing)
  · have hother : grains (rank + 1) ≤ grains other := strictMono_grains.monotone hgt
    have hspacing : spacing rank ≤ (grains rank).dist (grains other) := by
      rw [grains_succ] at hother
      rw [Nat.dist]
      omega
    have hnext : grains rank ≤ grains (rank + 1) := strictMono_grains.monotone (by omega)
    exact Nat.le_trans (Nat.le_trans hnext (grains_succ_le rank)) (Nat.mul_le_mul_left _ hspacing)

/-! ### The nearest magnitude -/

/-- From a binade on the magnitudes are multiples of its spacing, and below it they are less than
its first. -/
theorem dvd_grains_or_lt (s rank : Nat) :
    1 <<< s ∣ grains rank ∨ s ≠ 0 ∧ grains rank < binade * (1 <<< s) := by
  obtain ⟨c, s', hrank, hc, hlow, -⟩ := exists_place rank
  by_cases hs : s ≤ s'
  · rw [hrank, grains_add hlow (by omega), Nat.one_shiftLeft, Nat.one_shiftLeft]
    exact Or.inl (Nat.dvd_mul_left_of_dvd (Nat.pow_dvd_pow 2 hs) c)
  · refine Or.inr ⟨by omega, ?_⟩
    have hfirst : grains (binade + s * binade) = binade * (1 <<< s) :=
      grains_add (Or.inl (Nat.le_refl _)) (by omega)
    have hbinades : (s' + 1) * binade ≤ s * binade := Nat.mul_le_mul_right _ (by omega)
    rw [Nat.succ_mul] at hbinades
    rw [← hfirst]
    exact strictMono_grains (by omega)

/-- What the cut of a quotient says about it: it has at most 53 binary digits, and as many if
anything was cut. -/
theorem cut_bounds {num den s : Nat} (hden : 0 < den) (hs : s = (num / den).log2 - 52) :
    num ≤ 2 * binade * (den * (1 <<< s)) ∧ (binade * (den * (1 <<< s)) ≤ num ∨ s = 0) := by
  have hunit : ∀ n, n * (den * (1 <<< s)) = n * (1 <<< s) * den := by
    intro n
    rw [Nat.mul_assoc, Nat.mul_comm den]
  have hpower : ∀ n, (1 <<< n) * (1 <<< s) = 1 <<< (n + s) := by
    intro n
    simp only [Nat.one_shiftLeft, Nat.pow_add]
  have hbinade : binade = 1 <<< 52 := rfl
  have htwice : 2 * binade = 1 <<< 53 := rfl
  rw [hunit, hunit, htwice, hbinade, hpower, hpower]
  constructor
  · have hlog : num / den < 1 <<< (53 + s) := by
      rw [Nat.one_shiftLeft]
      exact Nat.lt_of_lt_of_le Nat.lt_log2_self (Nat.pow_le_pow_right (by decide) (by omega))
    exact Nat.le_of_lt ((Nat.div_lt_iff_lt_mul hden).mp hlog)
  · by_cases hzero : s = 0
    · exact Or.inr hzero
    · refine Or.inl ((Nat.le_div_iff_mul_le hden).mp ?_)
      rw [Nat.one_shiftLeft, show 52 + s = (num / den).log2 by omega]
      refine Nat.log2_self_le fun hquotient => hzero ?_
      rw [hs, hquotient]
      rfl

/-- The unit to which a quotient is cut: the magnitude that is chosen is the multiple nearest to
the quotient, and every other one is a multiple as well or below the quotient's binade. -/
theorem exists_cut {den : Nat} (hden : 0 < den) (num : Nat) : ∃ c unit,
    NearestEven (· * unit) num c ∧ grains (nearestRank num den) * den = c * unit ∧
      nearestRank num den % 2 = c % 2 ∧
      ∀ other, (∃ k, grains other * den = k * unit) ∨
        grains other * den < binade * unit ∧ binade * unit ≤ num := by
  obtain ⟨s, hs⟩ : ∃ s, s = (num / den).log2 - 52 := ⟨_, rfl⟩
  obtain ⟨unit, hunit⟩ : ∃ unit, unit = den * (1 <<< s) := ⟨_, rfl⟩
  obtain ⟨c, hc⟩ : ∃ c, c = roundDiv num unit := ⟨_, rfl⟩
  obtain ⟨hhigh, hlow⟩ := cut_bounds hden hs
  rw [← hunit] at hhigh hlow
  have hunitpos : 0 < unit := hunit ▸ Nat.mul_pos hden (one_shiftLeft_pos s)
  have hround : NearestEven (· * unit) num c := hc ▸ nearestEven_roundDiv hunitpos num
  have hmultiple : ∀ n, NearestEven (· * unit) (n * unit) n := by
    intro n
    have hself := nearestEven_roundDiv hunitpos (n * unit)
    rwa [roundDiv_mul_left hunitpos] at hself
  have hmono : StrictMono (· * unit) := strictMono_id.mul_const hunitpos
  have hcle : c ≤ 2 * binade := hround.mono hmono hhigh (hmultiple _)
  have hcge : binade ≤ c ∨ s = 0 := hlow.imp_left fun h => (hmultiple _).mono hmono h hround
  have hscale : ∀ k, k * (1 <<< s) * den = k * unit := by
    intro k
    rw [hunit, Nat.mul_assoc, Nat.mul_comm den]
  have hrank : nearestRank num den = c + s * binade := by
    rw [hc, hunit, hs, Nat.one_shiftLeft, ← Nat.shiftLeft_eq]
    rfl
  refine ⟨c, unit, hround, ?_, ?_, fun other => ?_⟩
  · rw [hrank, grains_add hcge hcle, hscale]
  · have heven : s * binade % 2 = 0 :=
      Nat.mod_eq_zero_of_dvd (Nat.dvd_mul_left_of_dvd (by decide) s)
    rw [hrank]
    omega
  · rcases dvd_grains_or_lt s other with ⟨k, hk⟩ | ⟨hs, hbelow⟩
    · exact Or.inl ⟨k, by rw [hk, Nat.mul_comm (1 <<< s), hscale]⟩
    · have hless := Nat.mul_lt_mul_of_pos_right hbelow hden
      rw [hscale] at hless
      exact Or.inr ⟨hless, by omega⟩

/-- **Rounding a quotient of grains chooses the nearest magnitude**, of two equally near ones the
one with the even rank. -/
theorem nearestEven_nearestRank {den : Nat} (hden : 0 < den) (num : Nat) :
    NearestEven (grains · * den) num (nearestRank num den) := by
  obtain ⟨c, unit, hround, hchoice, hparity, hothers⟩ := exists_cut hden num
  -- a magnitude below the binade is farther away than the first of the binade
  have hfirst := hround.nearest binade
  constructor
  · intro other
    simp only [hchoice]
    rcases hothers other with ⟨k, hk⟩ | ⟨hbelow, hnum⟩
    · rw [hk]
      exact hround.nearest k
    · simp only [Nat.dist] at hfirst ⊢
      omega
  · intro other hne htie
    simp only [hchoice] at htie
    rcases hothers other with ⟨k, hk⟩ | ⟨hbelow, hnum⟩
    · rw [hk] at htie
      have hkc : k ≠ c := by
        rintro rfl
        rw [← hchoice] at hk
        exact hne ((strictMono_grains.mul_const hden).injective hk)
      rw [hparity]
      exact hround.even k hkc htie
    · simp only [Nat.dist] at hfirst htie
      omega

theorem nearestRank_mono {num num' den : Nat} (hden : 0 < den) (h : num ≤ num') :
    nearestRank num den ≤ nearestRank num' den :=
  (nearestEven_nearestRank hden num).mono (strictMono_grains.mul_const hden) h
    (nearestEven_nearestRank hden num')

theorem nearestRank_eq {num den rank : Nat} (hden : 0 < den)
    (h : ∀ other, other ≠ rank → num.dist (grains rank * den) < num.dist (grains other * den)) :
    nearestRank num den = rank :=
  (nearestEven_nearestRank hden num).unique (strictMono_grains.mul_const hden)
    (.of_lt h)

end Number

end LoxCalc
