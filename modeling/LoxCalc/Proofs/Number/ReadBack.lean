import LoxCalc.Number.Text
import LoxCalc.Token.Scan

/-!
# Reading numbers back

The decimal that is written for a number reads back as this number.  The search
for it keeps only decimals that do, so two things are left to show: that the exact
decimal, to which the search falls back, is one of them, and that zeros may be
moved from the digits to the exponent.  Both say that **a quotient and the same
quotient extended are rounded alike** (`nearestRank_mul`).

* `rank_shortest`: the shortest decimal has the rank that it was made for.
* `numberText_positional`: positional notation is the text of a number token, and
  the token has the value of the decimal.
* `numberText_write`: so a literal without a sign reads back as itself.
-/

namespace LoxCalc

/-! ### Extended quotients -/

theorem roundDiv_mul {k : Nat} (hk : 0 < k) (num den : Nat) :
    roundDiv (num * k) (den * k) = roundDiv num den := by
  have htwice : ∀ n, 2 * (n * k) = 2 * n * k := fun n => (Nat.mul_assoc 2 n k).symm
  rw [roundDiv, roundDiv, Nat.mul_div_mul_right num den hk, Nat.mul_mod_mul_right, htwice]
  simp only [Nat.mul_lt_mul_right hk, Nat.mul_right_cancel_iff hk]

namespace Number

/-- **A quotient and the same quotient extended have one rank.** -/
theorem nearestRank_mul {k : Nat} (hk : 0 < k) (num den : Nat) :
    nearestRank (num * k) (den * k) = nearestRank num den := by
  have hshift : ∀ s, (den * k) <<< s = (den <<< s) * k := by
    intro s
    rw [Nat.shiftLeft_eq, Nat.shiftLeft_eq, Nat.mul_right_comm]
  rw [nearestRank, nearestRank, Nat.mul_div_mul_right num den hk]
  simp only [hshift, roundDiv_mul hk]

end Number

namespace Decimal

open Number

theorem tenPow_pos (n : Nat) : 0 < tenPow n :=
  Nat.pow_pos (by decide)

theorem tenPow_succ (n : Nat) : tenPow (n + 1) = tenPow n * 10 := rfl

theorem tenPow_eq (n : Nat) : tenPow n = Nat.pow 5 n * (1 <<< n) := by
  rw [Nat.one_shiftLeft]
  exact Nat.mul_pow 5 2 n

/-! ### The search -/

theorem rank_mul_ten (digits : Nat) (exponent : Int) :
    rank ⟨digits * 10, exponent⟩ = rank ⟨digits, exponent + 1⟩ := by
  cases exponent with
  | ofNat e =>
    show nearestRank (digits * 10 * tenPow e * grainsPerUnit) 1 =
      nearestRank (digits * tenPow (e + 1) * grainsPerUnit) 1
    rw [tenPow_succ, Nat.mul_assoc digits, Nat.mul_comm 10]
  | negSucc e =>
    have hmove : digits * 10 * grainsPerUnit = digits * grainsPerUnit * 10 :=
      Nat.mul_right_comm _ _ _
    cases e with
    | zero =>
      show nearestRank (digits * 10 * grainsPerUnit) (1 * 10) =
        nearestRank (digits * 1 * grainsPerUnit) 1
      rw [hmove, nearestRank_mul (by decide), Nat.mul_one]
    | succ e =>
      show nearestRank (digits * 10 * grainsPerUnit) (tenPow (e + 2)) =
        nearestRank (digits * grainsPerUnit) (tenPow (e + 1))
      rw [hmove, tenPow_succ (e + 1), nearestRank_mul (by decide)]

theorem rank_stripZeros (d : Decimal) : d.stripZeros.rank = d.rank := by
  fun_induction stripZeros d with
  | case1 d h ih =>
    have hdigits : d.digits / 10 * 10 = d.digits := Nat.div_mul_cancel (Nat.dvd_of_mod_eq_zero h.2)
    rw [ih, ← rank_mul_ten, hdigits]
  | case2 d h => rfl

end Decimal

namespace Number

theorem nearestRank_tenPow (magnitude n : Nat) :
    nearestRank (magnitude * Nat.pow 5 n * (1 <<< n)) (Decimal.tenPow n) =
      nearestRank magnitude 1 := by
  have hextended := nearestRank_mul (Decimal.tenPow_pos n) magnitude 1
  rw [Nat.one_mul] at hextended
  rw [Nat.mul_assoc, ← Decimal.tenPow_eq, hextended]

theorem rank_exactDecimal (rank : Nat) : (exactDecimal rank).rank = rank := by
  show nearestRank (exactDigits rank * grainsPerUnit) (Decimal.tenPow 1074) = rank
  rw [exactDigits, grainsPerUnit]
  -- nothing depends on the exponent, and its powers are not to be computed
  generalize 1074 = n
  rw [nearestRank_tenPow, nearestRank_grains]

theorem rank_of_onGrid? {rank size count : Nat} {d : Decimal}
    (h : onGrid? rank size count = some d) : d.rank = rank := by
  rw [onGrid?] at h
  exact of_decide_eq_true (List.find?_some (p := fun d : Decimal => decide (d.rank = rank)) h)

/-- **The shortest decimal reads back.** -/
theorem rank_shortest (rank : Nat) : (shortest rank).rank = rank := by
  rw [shortest]
  split
  · rename_i hzero
    subst hzero
    show nearestRank (0 * 1 * grainsPerUnit) 1 = 0
    rw [Nat.mul_one, Nat.zero_mul]
    exact nearestRank_grains 0
  · rw [Decimal.rank_stripZeros]
    cases hfound : (List.range longestShortest).findSome?
        fun k => onGrid? rank (exactDecimal rank).digitText.length (k + 1) with
    | none => exact rank_exactDecimal rank
    | some d =>
      obtain ⟨k, -, hgrid⟩ := List.exists_of_findSome?_eq_some hfound
      exact rank_of_onGrid? hgrid

end Number

/-! ### Positional notation -/

theorem Segment.text_number {whole fraction : List Char} (h : fraction ≠ []) :
    (Segment.number whole fraction).text = whole ++ '.' :: fraction := by
  cases fraction with
  | nil => exact absurd rfl h
  | cons d more => rfl

/-- A text that is read as a number token with the value `x`. -/
def NumberText (x : Number) (text : List Char) : Prop :=
  ∃ whole fraction, text = (Segment.number whole fraction).text ∧ whole ≠ [] ∧
    (∀ c ∈ whole ++ fraction, c.isDigit = true) ∧ Segment.numberValue whole fraction = x

namespace NumberText

variable {ds : List Char}

theorem of_digits (hne : ds ≠ []) (hdigits : ∀ c ∈ ds, c.isDigit = true) :
    NumberText (Decimal.toNumber false ⟨Nat.ofDigitChars 10 ds 0, 0⟩) ds := by
  refine ⟨ds, [], rfl, hne, ?_, ?_⟩
  · rwa [List.append_nil]
  · rw [Segment.numberValue, List.append_nil]
    rfl

theorem of_point {places : Nat} (hpos : 0 < places) (hlt : places < ds.length)
    (hdigits : ∀ c ∈ ds, c.isDigit = true) :
    NumberText (Decimal.toNumber false ⟨Nat.ofDigitChars 10 ds 0, -(places : Int)⟩)
      (ds.take (ds.length - places) ++ '.' :: ds.drop (ds.length - places)) := by
  have hfraction : (ds.drop (ds.length - places)).length = places := by
    rw [List.length_drop]
    omega
  have hwhole : 0 < (ds.take (ds.length - places)).length := by
    rw [List.length_take]
    omega
  refine ⟨ds.take (ds.length - places), ds.drop (ds.length - places), ?_,
    List.length_pos_iff.mp hwhole, ?_, ?_⟩
  · rw [Segment.text_number (List.length_pos_iff.mp (by omega))]
  · rwa [List.take_append_drop]
  · rw [Segment.numberValue, List.take_append_drop, hfraction]

end NumberText

namespace Decimal

open Number

theorem isDigit_of_mem_digitText {d : Decimal} {c : Char} (h : c ∈ d.digitText) :
    c.isDigit = true :=
  Nat.isDigit_of_mem_toDigits (by decide) (by decide) h

theorem isDigit_of_mem_zeros {n : Nat} {c : Char} (h : c ∈ List.replicate n '0') :
    c.isDigit = true := by
  rw [List.eq_of_mem_replicate h]
  decide

/-- Zeros behind the digits multiply, and zeros before them do nothing. -/
theorem ofDigitChars_digitText (d : Decimal) (before behind : Nat) :
    Nat.ofDigitChars 10
        (List.replicate before '0' ++ d.digitText ++ List.replicate behind '0') 0 =
      tenPow behind * d.digits := by
  rw [Nat.ofDigitChars_append, Nat.ofDigitChars_append, Nat.ofDigitChars_replicate_zero,
    Nat.ofDigitChars_replicate_zero, Nat.mul_zero, digitText, Nat.ofDigitChars_ten_toDigits]
  rfl

theorem numberText_positional_ofNat (digits e : Nat) :
    NumberText (toNumber false ⟨digits, .ofNat e⟩) (positional ⟨digits, .ofNat e⟩) := by
  obtain ⟨d, hd⟩ : ∃ d : Decimal, d = ⟨digits, .ofNat e⟩ := ⟨_, rfl⟩
  obtain ⟨k, hk⟩ : ∃ k, k = if digits = 0 then 0 else e := ⟨_, rfl⟩
  have htext : positional ⟨digits, .ofNat e⟩ = d.digitText ++ List.replicate k '0' := by
    rw [hd, hk]
    rfl
  have hne : d.digitText ++ List.replicate k '0' ≠ [] :=
    List.append_ne_nil_of_left_ne_nil Nat.toDigits_ne_nil _
  have hdigits : ∀ c ∈ d.digitText ++ List.replicate k '0', c.isDigit = true := by
    intro c hc
    rcases List.mem_append.mp hc with hc | hc
    · exact isDigit_of_mem_digitText hc
    · exact isDigit_of_mem_zeros hc
  have hvalue : Nat.ofDigitChars 10 (d.digitText ++ List.replicate k '0') 0 =
      digits * tenPow e := by
    have hzeros := d.ofDigitChars_digitText 0 k
    rw [List.replicate_zero, List.nil_append] at hzeros
    rw [hzeros, hd, Nat.mul_comm]
    -- a zero is written without the zeros of its exponent
    by_cases hzero : digits = 0
    · simp only [hzero, Nat.zero_mul]
    · rw [hk, if_neg hzero]
  have hread := NumberText.of_digits hne hdigits
  rw [hvalue] at hread
  rw [htext]
  have hrank : rank ⟨digits * tenPow e, 0⟩ = rank ⟨digits, .ofNat e⟩ := by
    show nearestRank (digits * tenPow e * 1 * grainsPerUnit) 1 = _
    rw [Nat.mul_one]
    rfl
  rwa [toNumber, hrank] at hread

theorem numberText_positional_negSucc (digits e : Nat) :
    NumberText (toNumber false ⟨digits, .negSucc e⟩) (positional ⟨digits, .negSucc e⟩) := by
  obtain ⟨d, hd⟩ : ∃ d : Decimal, d = ⟨digits, .negSucc e⟩ := ⟨_, rfl⟩
  obtain ⟨zeros, hzeros⟩ : ∃ n, n = e + 2 - d.digitText.length := ⟨_, rfl⟩
  obtain ⟨padded, hpadded⟩ : ∃ p, p = List.replicate zeros '0' ++ d.digitText := ⟨_, rfl⟩
  have htext : positional ⟨digits, .negSucc e⟩ =
      padded.take (padded.length - (e + 1)) ++ '.' :: padded.drop (padded.length - (e + 1)) := by
    rw [hpadded, hzeros, hd]
    rfl
  have hlt : e + 1 < padded.length := by
    rw [hpadded, List.length_append, List.length_replicate]
    omega
  have hdigits : ∀ c ∈ padded, c.isDigit = true := by
    intro c hc
    rw [hpadded] at hc
    rcases List.mem_append.mp hc with hc | hc
    · exact isDigit_of_mem_zeros hc
    · exact isDigit_of_mem_digitText hc
  have hvalue : Nat.ofDigitChars 10 padded 0 = digits := by
    have hread := d.ofDigitChars_digitText zeros 0
    rw [List.replicate_zero, List.append_nil, ← hpadded, tenPow] at hread
    rw [hread, hd]
    exact Nat.one_mul digits
  have hread := NumberText.of_point (Nat.succ_pos e) hlt hdigits
  rw [hvalue] at hread
  rw [htext]
  exact hread

/-- **Positional notation is the text of a number token** with the value of the
decimal. -/
theorem numberText_positional (d : Decimal) : NumberText (d.toNumber false) d.positional := by
  obtain ⟨digits, exponent⟩ := d
  cases exponent with
  | ofNat e => exact numberText_positional_ofNat digits e
  | negSucc e => exact numberText_positional_negSucc digits e

end Decimal

namespace Number

/-- **A finite number without a sign is written as a number token with its value.** -/
theorem numberText_write (rank : Fin rankBound) :
    NumberText (.finite false rank) (write .literal (.finite false rank)) := by
  have htext : write .literal (.finite false rank) = (shortest rank).positional := by
    show (shortest rank).positional ++ [] = _
    rw [List.append_nil]
  have hvalue : (shortest rank).toNumber false = .finite false rank := by
    rw [Decimal.toNumber, rank_shortest, ofRank, dif_pos rank.isLt]
  rw [htext, ← hvalue]
  exact Decimal.numberText_positional _

theorem write_negative (rank : Fin rankBound) :
    write .literal (.finite true rank) = '-' :: write .literal (.finite false rank) := rfl

end Number

end LoxCalc
