import Mathlib.Algebra.Group.Nat.Defs
import LoxCalc.Text.Utf8

/-!
# Text and its bytes

Text that is encoded and read again is the same text.  A character becomes at most four
bytes, the first of which opens a sequence that the others, six bits each, bring to its end
(`continuation`).  **The ranges of the reader let every character through**: the second byte is
held to a narrower range only where a smaller one would be an overlong form, or where a surrogate
or a number past the last character would come of it.

* `exists_lead`: the first byte of a character, by its length.
* `decodeFrom_continuation`: the other bytes.
* `decodeFrom_encodeChar`, `decode_encode`: one character, and a text.
-/

namespace LoxCalc.Text.Utf8

open String (utf8EncodeChar)

/-! ### Opening a sequence -/

theorem start_two {b : Nat} (h : 0xC2 ≤ b) (h' : b < 0xE0) :
    start b = ⟨[], some ⟨b - 0xC0, 1, 0x80, 0xBF⟩⟩ := by
  rw [start, if_neg (by omega), if_neg (by omega), if_pos h']

/-- A sequence of three bytes: the range of the second one is narrower after two of the first. -/
theorem exists_start_three {b : Nat} (h : 0xE0 ≤ b) (h' : b < 0xF0) :
    ∃ low high, start b = ⟨[], some ⟨b - 0xE0, 2, low, high⟩⟩ ∧
      (b = 0xE0 ∧ low = 0xA0 ∨ b ≠ 0xE0 ∧ low = 0x80) ∧
      (b = 0xED ∧ high = 0x9F ∨ b ≠ 0xED ∧ high = 0xBF) := by
  rw [start, if_neg (by omega), if_neg (by omega), if_neg (by omega)]
  by_cases hfirst : b = 0xE0
  · rw [if_pos hfirst, hfirst]
    exact ⟨_, _, rfl, by decide, by decide⟩
  · rw [if_neg hfirst]
    by_cases hlast : b = 0xED
    · rw [if_pos hlast, hlast]
      exact ⟨_, _, rfl, by decide, by decide⟩
    · rw [if_neg hlast, if_pos h']
      exact ⟨_, _, rfl, Or.inr ⟨hfirst, rfl⟩, Or.inr ⟨hlast, rfl⟩⟩

/-- A sequence of four bytes: again there are two of the first with a narrower range. -/
theorem exists_start_four {b : Nat} (h : 0xF0 ≤ b) (h' : b < 0xF5) :
    ∃ low high, start b = ⟨[], some ⟨b - 0xF0, 3, low, high⟩⟩ ∧
      (b = 0xF0 ∧ low = 0x90 ∨ b ≠ 0xF0 ∧ low = 0x80) ∧
      (b = 0xF4 ∧ high = 0x8F ∨ b ≠ 0xF4 ∧ high = 0xBF) := by
  rw [start, if_neg (by omega), if_neg (by omega), if_neg (by omega), if_neg (by omega),
    if_neg (by omega), if_neg (by omega)]
  by_cases hfirst : b = 0xF0
  · rw [if_pos hfirst, hfirst]
    exact ⟨_, _, rfl, by decide, by decide⟩
  · rw [if_neg hfirst]
    by_cases hlast : b = 0xF4
    · rw [if_neg (by omega), if_pos hlast, hlast]
      exact ⟨_, _, rfl, by decide, by decide⟩
    · rw [if_pos (by omega)]
      exact ⟨_, _, rfl, Or.inr ⟨hfirst, rfl⟩, Or.inr ⟨hlast, rfl⟩⟩

/-! ### The bytes of a character -/

theorem toNat_valid (c : Char) :
    c.toNat < 0xD800 ∨ (0xDFFF < c.toNat ∧ c.toNat < 0x110000) :=
  c.valid

theorem toNat_ofNat_of_lt {n : Nat} (h : n < 0x100) : (UInt8.ofNat n).toNat = n := by
  rw [UInt8.toNat_ofNat']
  exact Nat.mod_eq_of_lt h

/-- A byte of an encoding that is not the first one: six bits of the number. -/
def sixBits (k n : Nat) : Nat :=
  n / 0x40 ^ k % 0x40 + 0x80

def continuation : Nat → Nat → List UInt8
  | 0, _ => []
  | k + 1, n => UInt8.ofNat (sixBits k n) :: continuation k n

theorem sixBits_range (k n : Nat) : 0x80 ≤ sixBits k n ∧ sixBits k n ≤ 0xBF := by
  have hmod := Nat.mod_lt (n / 0x40 ^ k) (show 0 < 0x40 by decide)
  rw [sixBits]
  omega

theorem sixBits_lt (k n : Nat) : sixBits k n < 0x100 := by
  have hrange := sixBits_range k n
  omega

theorem div_pow_eq (k n : Nat) :
    n / 0x40 ^ k = n / 0x40 ^ (k + 1) * 0x40 + (sixBits k n - 0x80) := by
  rw [Nat.pow_succ, ← Nat.div_div_eq_div_mul, sixBits]
  omega

section Lengths

variable {c : Char}

theorem encodeChar_one (h : c.toNat < 0x80) : utf8EncodeChar c = [UInt8.ofNat c.toNat] := by
  have hval : c.val.toNat = c.toNat := rfl
  simp only [utf8EncodeChar, hval]
  rw [if_pos (by omega)]

theorem encodeChar_two (h : 0x80 ≤ c.toNat) (h' : c.toNat < 0x800) :
    utf8EncodeChar c = UInt8.ofNat (c.toNat / 0x40 ^ 1 + 0xC0) :: continuation 1 c.toNat := by
  have hval : c.val.toNat = c.toNat := rfl
  have hlead : c.toNat / 64 % 32 + 192 = c.toNat / 0x40 ^ 1 + 0xC0 := by omega
  simp only [utf8EncodeChar, hval]
  rw [if_neg (by omega), if_pos (by omega), hlead]
  simp [continuation, sixBits]

theorem encodeChar_three (h : 0x800 ≤ c.toNat) (h' : c.toNat < 0x10000) :
    utf8EncodeChar c = UInt8.ofNat (c.toNat / 0x40 ^ 2 + 0xE0) :: continuation 2 c.toNat := by
  have hval : c.val.toNat = c.toNat := rfl
  have hlead : c.toNat / 4096 % 16 + 224 = c.toNat / 0x40 ^ 2 + 0xE0 := by omega
  simp only [utf8EncodeChar, hval]
  rw [if_neg (by omega), if_neg (by omega), if_pos (by omega), hlead]
  simp [continuation, sixBits]

theorem encodeChar_four (h : 0x10000 ≤ c.toNat) :
    utf8EncodeChar c = UInt8.ofNat (c.toNat / 0x40 ^ 3 + 0xF0) :: continuation 3 c.toNat := by
  have hvalid := toNat_valid c
  have hval : c.val.toNat = c.toNat := rfl
  have hlead : c.toNat / 262144 % 8 + 240 = c.toNat / 0x40 ^ 3 + 0xF0 := by omega
  simp only [utf8EncodeChar, hval]
  rw [if_neg (by omega), if_neg (by omega), if_neg (by omega), hlead]
  simp [continuation, sixBits]

theorem exists_lead (h : 0x80 ≤ c.toNat) :
    ∃ k lead, utf8EncodeChar c = UInt8.ofNat lead :: continuation k c.toNat ∧ lead < 0x100 ∧
      (c.toNat < 0x800 ∧ lead = c.toNat / 0x40 ^ 1 + 0xC0 ∨
        0x800 ≤ c.toNat ∧ c.toNat < 0x10000 ∧ lead = c.toNat / 0x40 ^ 2 + 0xE0 ∨
        0x10000 ≤ c.toNat ∧ lead = c.toNat / 0x40 ^ 3 + 0xF0) := by
  have hvalid := toNat_valid c
  by_cases htwo : c.toNat < 0x800
  · exact ⟨_, _, encodeChar_two h htwo, by omega, by omega⟩
  by_cases hthree : c.toNat < 0x10000
  · exact ⟨_, _, encodeChar_three (by omega) hthree, by omega, by omega⟩
  · exact ⟨_, _, encodeChar_four (by omega), by omega, by omega⟩

end Lengths

/-! ### Reading on -/

section Reading

variable {p : Pending} {b : UInt8} {bits low high : Nat} {rest : List UInt8}

theorem decodeFrom_of_start (h : start b.toNat = ⟨[], some p⟩) :
    decodeFrom none (b :: rest) = decodeFrom (some p) rest := by
  rw [decodeFrom, step, h]
  rfl

theorem decodeFrom_more (hlow : low ≤ b.toNat) (hhigh : b.toNat ≤ high) (n : Nat) :
    decodeFrom (some ⟨bits, n + 2, low, high⟩) (b :: rest) =
      decodeFrom (some ⟨bits * 0x40 + (b.toNat - 0x80), n + 1, 0x80, 0xBF⟩) rest := by
  have hnot : ¬ n + 2 ≤ 1 := by omega
  rw [decodeFrom, step, Pending.next]
  simp only [if_pos (And.intro hlow hhigh), if_neg hnot]
  rfl

theorem decodeFrom_last (hlow : low ≤ b.toNat) (hhigh : b.toNat ≤ high) :
    decodeFrom (some ⟨bits, 1, low, high⟩) (b :: rest) =
      Char.ofNat (bits * 0x40 + (b.toNat - 0x80)) :: decodeFrom none rest := by
  rw [decodeFrom, step, Pending.next]
  simp only [if_pos (And.intro hlow hhigh), if_pos (Nat.le_refl 1)]
  rfl

/-- **The last bytes of an encoding** bring the sequence to its end, if the first of them is in
range. -/
theorem decodeFrom_continuation (k n : Nat) : ∀ {bits low high : Nat}, n / 0x40 ^ (k + 1) = bits →
    low ≤ sixBits k n → sixBits k n ≤ high →
      decodeFrom (some ⟨bits, k + 1, low, high⟩) (continuation (k + 1) n ++ rest) =
        Char.ofNat n :: decodeFrom none rest := by
  induction k with
  | zero =>
    rintro bits low high rfl hlow hhigh
    have hbyte := toNat_ofNat_of_lt (sixBits_lt 0 n)
    show decodeFrom _ (UInt8.ofNat (sixBits 0 n) :: rest) = _
    rw [decodeFrom_last (hbyte.symm ▸ hlow) (hbyte.symm ▸ hhigh), hbyte, ← div_pow_eq, Nat.pow_zero,
      Nat.div_one]
  | succ k ih =>
    rintro bits low high rfl hlow hhigh
    have hbyte := toNat_ofNat_of_lt (sixBits_lt (k + 1) n)
    show decodeFrom _ (UInt8.ofNat (sixBits (k + 1) n) :: (continuation (k + 1) n ++ rest)) = _
    rw [decodeFrom_more (hbyte.symm ▸ hlow) (hbyte.symm ▸ hhigh), hbyte, ← div_pow_eq]
    exact ih rfl (sixBits_range k n).1 (sixBits_range k n).2

end Reading

/-! ### Characters -/

/-- **A character is read as it was written.** -/
theorem decodeFrom_encodeChar (c : Char) (rest : List UInt8) :
    decodeFrom none (utf8EncodeChar c ++ rest) = c :: decodeFrom none rest := by
  have hvalid := toNat_valid c
  by_cases hone : c.toNat < 0x80
  · have hb := toNat_ofNat_of_lt (n := c.toNat) (by omega)
    rw [encodeChar_one hone, List.singleton_append, decodeFrom, step, hb, start, if_pos hone,
      Char.ofNat_toNat]
    rfl
  by_cases htwo : c.toNat < 0x800
  · have hb := toNat_ofNat_of_lt (n := c.toNat / 0x40 ^ 1 + 0xC0) (by omega)
    have hstart := start_two (b := c.toNat / 0x40 ^ 1 + 0xC0) (by omega) (by omega)
    have hrange := sixBits_range 0 c.toNat
    rw [encodeChar_two (by omega) htwo, List.cons_append, decodeFrom_of_start (hb.symm ▸ hstart),
      decodeFrom_continuation 0 c.toNat (by omega) hrange.1 hrange.2, Char.ofNat_toNat]
  by_cases hthree : c.toNat < 0x10000
  · have hb := toNat_ofNat_of_lt (n := c.toNat / 0x40 ^ 2 + 0xE0) (by omega)
    obtain ⟨low, high, hstart, hlow, hhigh⟩ :=
      exists_start_three (b := c.toNat / 0x40 ^ 2 + 0xE0) (by omega) (by omega)
    have hrange : low ≤ sixBits 1 c.toNat ∧ sixBits 1 c.toNat ≤ high := by
      rw [sixBits]
      omega
    rw [encodeChar_three (by omega) hthree, List.cons_append,
      decodeFrom_of_start (hb.symm ▸ hstart),
      decodeFrom_continuation 1 c.toNat (by omega) hrange.1 hrange.2, Char.ofNat_toNat]
  · have hb := toNat_ofNat_of_lt (n := c.toNat / 0x40 ^ 3 + 0xF0) (by omega)
    obtain ⟨low, high, hstart, hlow, hhigh⟩ :=
      exists_start_four (b := c.toNat / 0x40 ^ 3 + 0xF0) (by omega) (by omega)
    have hrange : low ≤ sixBits 2 c.toNat ∧ sixBits 2 c.toNat ≤ high := by
      rw [sixBits]
      omega
    rw [encodeChar_four (by omega), List.cons_append, decodeFrom_of_start (hb.symm ▸ hstart),
      decodeFrom_continuation 2 c.toNat (by omega) hrange.1 hrange.2, Char.ofNat_toNat]

/-- **A text is read as it was written.** -/
theorem decode_encode (text : List Char) : decode (encode text) = text := by
  rw [decode, encode]
  induction text with
  | nil => rfl
  | cons c text ih => rw [List.flatMap_cons, decodeFrom_encodeChar, ih]

end LoxCalc.Text.Utf8
