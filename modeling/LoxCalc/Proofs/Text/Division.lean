import LoxCalc.Proofs.Text.Encoding

/-!
# What bytes are divided into

Bytes are divided into characters and what is not well formed, with `Divided`: from the left,
the encoding of a character where one stands, and where none stands a *maximal invalid subpart*,
the longest beginning of an encoding or a single byte that begins none.  Encodings are those of
`String.utf8EncodeChar`; nothing is said here of ranges of bytes.

**The reader divides its bytes** (`readsParts`), and there is one division
(`Divided.unique`), so that the text of bytes is that of their parts (`Divided.decode_eq`).  The
proof says what the state of the reader means: `Opened taken p` if the encodings that begin with
the bytes `taken` are those of the numbers that complete `p`.  A byte in the range of `p` is then
one with which an encoding goes on, and no other is (`Opened.begins_iff`).
-/

namespace LoxCalc.Text.Utf8

open String (utf8EncodeChar)

/-! ### Divisions -/

/-- A part of bytes: a character as it is encoded, or bytes that encode nothing. -/
inductive Part where
  | character (c : Char)
  | invalid (subpart : List UInt8)
  deriving DecidableEq, Repr

namespace Part

def bytes : Part → List UInt8
  | .character c => utf8EncodeChar c
  | .invalid subpart => subpart

def char : Part → Char
  | .character c => c
  | .invalid _ => replacement

end Part

def Begins (taken : List UInt8) : Prop :=
  ∃ c, taken <+: utf8EncodeChar c

/-- What is taken for one character where bytes are not well formed: the longest beginning of an
encoding, or a single byte. -/
structure MaximalInvalid (bytes subpart : List UInt8) : Prop where
  /-- The bytes do not begin with a character. -/
  invalid : ∀ c, ¬ utf8EncodeChar c <+: bytes
  isPrefix : subpart <+: bytes
  ne_nil : subpart ≠ []
  short : Begins subpart ∨ subpart.length = 1
  longest : ∀ taken, Begins taken → taken <+: bytes → taken.length ≤ subpart.length

inductive Divided : List UInt8 → List Part → Prop
  | nil : Divided [] []
  | character (c : Char) {rest : List UInt8} {parts : List Part} (hrest : Divided rest parts) :
      Divided (utf8EncodeChar c ++ rest) (.character c :: parts)
  | invalid {subpart rest : List UInt8} {parts : List Part}
      (hfirst : MaximalInvalid (subpart ++ rest) subpart) (hrest : Divided rest parts) :
      Divided (subpart ++ rest) (.invalid subpart :: parts)

/-! ### Encodings -/

/-- No encoding is the beginning of another one. -/
theorem eq_of_encodeChar_isPrefix {c d : Char} (h : utf8EncodeChar c <+: utf8EncodeChar d) :
    c = d := by
  obtain ⟨rest, hrest⟩ := h
  have hread := decodeFrom_encodeChar d []
  rw [List.append_nil, ← hrest, decodeFrom_encodeChar] at hread
  exact (List.cons.inj hread).1

theorem encodeChar_ne_nil (c : Char) : utf8EncodeChar c ≠ [] := by
  intro hnil
  have hread := decodeFrom_encodeChar c []
  rw [hnil] at hread
  cases hread

theorem Begins.of_isPrefix {taken more : List UInt8} (h : Begins more) (hbegin : taken <+: more) :
    Begins taken := by
  obtain ⟨c, hc⟩ := h
  exact ⟨c, hbegin.trans hc⟩

theorem lead_cases {c : Char} {b : UInt8} (h : [b] <+: utf8EncodeChar c) :
    (c.toNat < 0x80 ∧ b.toNat = c.toNat) ∨
      (0x80 ≤ c.toNat ∧ c.toNat < 0x800 ∧ b.toNat = c.toNat / 0x40 ^ 1 + 0xC0) ∨
      (0x800 ≤ c.toNat ∧ c.toNat < 0x10000 ∧ b.toNat = c.toNat / 0x40 ^ 2 + 0xE0) ∨
      (0x10000 ≤ c.toNat ∧ b.toNat = c.toNat / 0x40 ^ 3 + 0xF0) := by
  by_cases hone : c.toNat < 0x80
  · rw [encodeChar_one hone] at h
    refine Or.inl ⟨hone, ?_⟩
    rw [(List.cons_prefix_cons.mp h).1, toNat_ofNat_of_lt (by omega)]
  · obtain ⟨k, lead, hencode, hlt, hlead⟩ := exists_lead (Nat.not_lt.mp hone)
    rw [hencode] at h
    have hb : b.toNat = lead := by rw [(List.cons_prefix_cons.mp h).1, toNat_ofNat_of_lt hlt]
    omega

/-! ### What the state of the reader means -/

/-- Whether a number has the bits of an open sequence, and its next byte is in range. -/
structure Pending.Completes (p : Pending) (n : Nat) : Prop where
  bits : n / 0x40 ^ p.remaining = p.bits
  low : p.low ≤ sixBits (p.remaining - 1) n
  high : sixBits (p.remaining - 1) n ≤ p.high

/-- **What an open sequence means**: the encodings that begin with the bytes `taken` are those
of the numbers that complete it, and there are such numbers. -/
structure Opened (taken : List UInt8) (p : Pending) : Prop where
  pos : 0 < p.remaining
  range : 0x80 ≤ p.low ∧ p.low ≤ p.high ∧ p.high ≤ 0xBF
  complete : ∀ n, p.Completes n →
    ∃ c : Char, c.toNat = n ∧ utf8EncodeChar c = taken ++ continuation p.remaining n
  sound : ∀ c, taken <+: utf8EncodeChar c →
    p.Completes c.toNat ∧ utf8EncodeChar c = taken ++ continuation p.remaining c.toNat

section Leads

variable {b : UInt8} {bits k base low high : Nat}

/-- A first byte opens a sequence if the numbers in its range are characters that are encoded
with this byte, and there are no others. -/
theorem opened_lead (hbase : b.toNat = bits + base) (hpos : 0 < k)
    (hrange : 0x80 ≤ low ∧ low ≤ high ∧ high ≤ 0xBF)
    (hvalid : ∀ n, Pending.Completes ⟨bits, k, low, high⟩ n → n.isValidChar)
    (hencode : ∀ c : Char, Pending.Completes ⟨bits, k, low, high⟩ c.toNat →
      utf8EncodeChar c = UInt8.ofNat (c.toNat / 0x40 ^ k + base) :: continuation k c.toNat)
    (honly : ∀ c : Char, [b] <+: utf8EncodeChar c →
      Pending.Completes ⟨bits, k, low, high⟩ c.toNat) :
    Opened [b] ⟨bits, k, low, high⟩ := by
  have hwhole : ∀ c : Char, Pending.Completes ⟨bits, k, low, high⟩ c.toNat →
      utf8EncodeChar c = [b] ++ continuation k c.toNat := by
    intro c hc
    have hlead : UInt8.ofNat (c.toNat / 0x40 ^ k + base) = b := by
      rw [hc.bits, ← hbase, UInt8.ofNat_toNat]
    rw [hencode c hc, hlead]
    rfl
  refine ⟨hpos, hrange, fun n hn => ?_, fun c hc => ⟨honly c hc, hwhole c (honly c hc)⟩⟩
  have hnat : (Char.ofNatAux n (hvalid n hn)).toNat = n := rfl
  have htext := hwhole (Char.ofNatAux n (hvalid n hn))
  rw [hnat] at htext
  exact ⟨_, hnat, htext hn⟩

theorem opened_two (h : 0xC2 ≤ b.toNat) (h' : b.toNat < 0xE0) :
    Opened [b] ⟨b.toNat - 0xC0, 1, 0x80, 0xBF⟩ := by
  have hnumber : ∀ n, Pending.Completes ⟨b.toNat - 0xC0, 1, 0x80, 0xBF⟩ n →
      0x80 ≤ n ∧ n < 0x800 := by
    rintro n ⟨hbits, -, -⟩
    simp only at hbits
    omega
  have hbase : b.toNat = b.toNat - 0xC0 + 0xC0 := by omega
  refine opened_lead hbase (by omega) (by omega) (fun n hn => Or.inl ?_) (fun c hc => ?_)
    (fun c hc => ?_)
  · have := hnumber n hn
    omega
  · exact encodeChar_two (hnumber _ hc).1 (hnumber _ hc).2
  · have hlead := lead_cases hc
    have hvalid := toNat_valid c
    constructor <;> simp only [sixBits] <;> omega

/-- The second byte is held to a narrower range after two of the first bytes. -/
theorem opened_three (h : 0xE0 ≤ b.toNat) (h' : b.toNat < 0xF0)
    (hlow : b.toNat = 0xE0 ∧ low = 0xA0 ∨ b.toNat ≠ 0xE0 ∧ low = 0x80)
    (hhigh : b.toNat = 0xED ∧ high = 0x9F ∨ b.toNat ≠ 0xED ∧ high = 0xBF) :
    Opened [b] ⟨b.toNat - 0xE0, 2, low, high⟩ := by
  have hnumber : ∀ n, Pending.Completes ⟨b.toNat - 0xE0, 2, low, high⟩ n →
      0x800 ≤ n ∧ n < 0x10000 ∧ (n < 0xD800 ∨ 0xDFFF < n) := by
    rintro n ⟨hbits, hl, hh⟩
    simp only [sixBits] at hbits hl hh
    omega
  have hbase : b.toNat = b.toNat - 0xE0 + 0xE0 := by omega
  refine opened_lead hbase (by omega) (by omega) (fun n hn => ?_) (fun c hc => ?_)
    (fun c hc => ?_)
  · have := hnumber n hn
    simp only [Nat.isValidChar]
    omega
  · exact encodeChar_three (hnumber _ hc).1 (hnumber _ hc).2.1
  · have hlead := lead_cases hc
    have hvalid := toNat_valid c
    constructor <;> simp only [sixBits] <;> omega

theorem opened_four (h : 0xF0 ≤ b.toNat) (h' : b.toNat < 0xF5)
    (hlow : b.toNat = 0xF0 ∧ low = 0x90 ∨ b.toNat ≠ 0xF0 ∧ low = 0x80)
    (hhigh : b.toNat = 0xF4 ∧ high = 0x8F ∨ b.toNat ≠ 0xF4 ∧ high = 0xBF) :
    Opened [b] ⟨b.toNat - 0xF0, 3, low, high⟩ := by
  have hnumber : ∀ n, Pending.Completes ⟨b.toNat - 0xF0, 3, low, high⟩ n →
      0x10000 ≤ n ∧ n < 0x110000 := by
    rintro n ⟨hbits, hl, hh⟩
    simp only [sixBits] at hbits hl hh
    omega
  have hbase : b.toNat = b.toNat - 0xF0 + 0xF0 := by omega
  refine opened_lead hbase (by omega) (by omega) (fun n hn => Or.inr ?_) (fun c hc => ?_)
    (fun c hc => ?_)
  · have := hnumber n hn
    omega
  · exact encodeChar_four (hnumber _ hc).1
  · have hlead := lead_cases hc
    have hvalid := toNat_valid c
    constructor <;> simp only [sixBits] <;> omega

end Leads

namespace Opened

variable {taken : List UInt8} {bits k low high : Nat}

theorem completes (h : Opened taken ⟨bits, k + 1, low, high⟩) {b : UInt8} (hlow : low ≤ b.toNat)
    (hhigh : b.toNat ≤ high) {n : Nat} (hn : n / 0x40 ^ k = bits * 0x40 + (b.toNat - 0x80)) :
    Pending.Completes ⟨bits, k + 1, low, high⟩ n ∧ UInt8.ofNat (sixBits k n) = b := by
  have hrange := h.range
  simp only at hrange
  have hmore : n / 0x40 ^ (k + 1) = bits := by
    rw [Nat.pow_succ, ← Nat.div_div_eq_div_mul, hn]
    omega
  have hbyte : sixBits k n = b.toNat := by
    rw [sixBits, hn]
    omega
  refine ⟨⟨hmore, ?_, ?_⟩, ?_⟩
  · show low ≤ sixBits k n
    omega
  · show sixBits k n ≤ high
    omega
  · rw [hbyte, UInt8.ofNat_toNat]

theorem byte_of_isPrefix (h : Opened taken ⟨bits, k + 1, low, high⟩) {b : UInt8} {c : Char}
    (hc : taken ++ [b] <+: utf8EncodeChar c) :
    low ≤ b.toNat ∧ b.toNat ≤ high ∧ c.toNat / 0x40 ^ k = bits * 0x40 + (b.toNat - 0x80) := by
  obtain ⟨hcompletes, htext⟩ := h.sound c ((List.prefix_append _ _).trans hc)
  rw [htext, List.prefix_append_right_inj] at hc
  have hbyte : b.toNat = sixBits k c.toNat := by
    rw [(List.cons_prefix_cons.mp hc).1, toNat_ofNat_of_lt (sixBits_lt k _)]
  have hbits : c.toNat / 0x40 ^ (k + 1) = bits := hcompletes.bits
  rw [hbyte, ← hbits]
  exact ⟨hcompletes.low, hcompletes.high, div_pow_eq k c.toNat⟩

/-- **The encodings that go on with a byte in range**, whatever its bits are. -/
theorem exists_encodeChar (h : Opened taken ⟨bits, k + 1, low, high⟩) {b : UInt8}
    (hlow : low ≤ b.toNat) (hhigh : b.toNat ≤ high) {n : Nat}
    (hn : n / 0x40 ^ k = bits * 0x40 + (b.toNat - 0x80)) :
    ∃ c : Char, c.toNat = n ∧ utf8EncodeChar c = taken ++ [b] ++ continuation k n := by
  obtain ⟨hcompletes, hbyte⟩ := h.completes hlow hhigh hn
  obtain ⟨c, hc, htext⟩ := h.complete n hcompletes
  refine ⟨c, hc, ?_⟩
  rw [htext, continuation, hbyte, List.append_assoc]
  rfl

/-- **An encoding goes on with the bytes in range**, and with no others. -/
theorem begins_iff {p : Pending} (h : Opened taken p) (b : UInt8) :
    Begins (taken ++ [b]) ↔ p.low ≤ b.toNat ∧ b.toNat ≤ p.high := by
  obtain ⟨bits, remaining, low, high⟩ := p
  obtain ⟨k, rfl⟩ := Nat.exists_eq_succ_of_ne_zero (Nat.ne_of_gt h.pos)
  constructor
  · rintro ⟨c, hc⟩
    obtain ⟨hlow, hhigh, -⟩ := h.byte_of_isPrefix hc
    exact ⟨hlow, hhigh⟩
  · rintro ⟨hlow, hhigh⟩
    have hn : (bits * 0x40 + (b.toNat - 0x80)) * 0x40 ^ k / 0x40 ^ k =
        bits * 0x40 + (b.toNat - 0x80) := Nat.mul_div_cancel _ (Nat.pow_pos (by decide))
    obtain ⟨c, -, htext⟩ := h.exists_encodeChar hlow hhigh hn
    exact ⟨c, htext ▸ List.prefix_append _ _⟩

theorem last (h : Opened taken ⟨bits, 1, low, high⟩) {b : UInt8} (hlow : low ≤ b.toNat)
    (hhigh : b.toNat ≤ high) :
    utf8EncodeChar (Char.ofNat (bits * 0x40 + (b.toNat - 0x80))) = taken ++ [b] := by
  obtain ⟨c, hc, htext⟩ := h.exists_encodeChar hlow hhigh (Nat.div_one _)
  rw [← hc, Char.ofNat_toNat, htext]
  exact List.append_nil _

/-- **A byte in range brings the sequence on.** -/
theorem more (h : Opened taken ⟨bits, k + 2, low, high⟩) {b : UInt8} (hlow : low ≤ b.toNat)
    (hhigh : b.toNat ≤ high) :
    Opened (taken ++ [b]) ⟨bits * 0x40 + (b.toNat - 0x80), k + 1, 0x80, 0xBF⟩ := by
  have hrange : 0x80 ≤ 0x80 ∧ 0x80 ≤ 0xBF ∧ 0xBF ≤ 0xBF := by decide
  refine ⟨Nat.succ_pos k, hrange, fun n hn => h.exists_encodeChar hlow hhigh hn.bits,
    fun c hc => ?_⟩
  obtain ⟨-, -, hbits⟩ := h.byte_of_isPrefix hc
  obtain ⟨d, hd, htext⟩ := h.exists_encodeChar hlow hhigh hbits
  obtain rfl : d = c := Char.toNat_inj.mp hd
  exact ⟨⟨hbits, (sixBits_range k d.toNat).1, (sixBits_range k d.toNat).2⟩, htext⟩

theorem exists_begins {p : Pending} (h : Opened taken p) : ∃ b, Begins (taken ++ [b]) := by
  obtain ⟨hlow, hrange, hhigh⟩ := h.range
  refine ⟨UInt8.ofNat p.low, (h.begins_iff _).mpr ?_⟩
  rw [toNat_ofNat_of_lt (by omega)]
  exact ⟨Nat.le_refl _, hrange⟩

theorem begins {p : Pending} (h : Opened taken p) : Begins taken := by
  obtain ⟨b, hb⟩ := h.exists_begins
  exact hb.of_isPrefix (List.prefix_append _ _)

theorem ne_nil {p : Pending} (h : Opened taken p) : taken ≠ [] := by
  rintro rfl
  -- an encoding may begin with a byte below the range of any later one
  obtain ⟨hlow, -⟩ := (h.begins_iff 0x61).mp ⟨'a', by decide⟩
  exact absurd (Nat.le_trans h.range.1 hlow) (by decide)

theorem not_encodeChar_isPrefix {p : Pending} (h : Opened taken p) (c : Char) :
    ¬ utf8EncodeChar c <+: taken := by
  intro hc
  obtain ⟨b, d, hd⟩ := h.exists_begins
  obtain rfl : c = d := eq_of_encodeChar_isPrefix (hc.trans ((List.prefix_append _ _).trans hd))
  have hlength := (hd.trans hc).length_le
  rw [List.length_append, List.length_singleton] at hlength
  omega

end Opened

theorem encodeChar_of_ascii {b : UInt8} (h : b.toNat < 0x80) :
    utf8EncodeChar (Char.ofNat b.toNat) = [b] := by
  have hnat : (Char.ofNat b.toNat).toNat = b.toNat := by
    rw [Char.ofNat, dif_pos (Or.inl (by omega))]
    rfl
  rw [encodeChar_one (by omega), hnat, UInt8.ofNat_toNat]

/-! ### Invalid subparts -/

/-- **Where an invalid subpart ends**: with bytes that no encoding goes on with. -/
theorem maximalInvalid_of_stop {taken rest : List UInt8} (hne : taken ≠ [])
    (hshort : Begins taken ∨ taken.length = 1) (hinvalid : ∀ c, ¬ utf8EncodeChar c <+: taken)
    (hstop : ∀ b more, rest = b :: more → ¬ Begins (taken ++ [b])) :
    MaximalInvalid (taken ++ rest) taken := by
  have hwithin : ∀ w, Begins w → w <+: taken ++ rest → w <+: taken := by
    intro w hw hbegin
    rcases List.prefix_or_prefix_of_prefix hbegin (List.prefix_append taken rest) with
      hwithin | ⟨more, rfl⟩
    · exact hwithin
    cases more with
    | nil => exact ⟨[], by rw [List.append_nil, List.append_nil]⟩
    | cons b more =>
      obtain ⟨after, hafter⟩ := (List.prefix_append_right_inj taken).mp hbegin
      have hbegins : Begins (taken ++ [b]) :=
        hw.of_isPrefix ((List.prefix_append_right_inj taken).mpr ⟨more, rfl⟩)
      exact absurd hbegins (hstop b (more ++ after) hafter.symm)
  refine ⟨fun c hc => ?_, List.prefix_append _ _, hne, hshort, fun w hw hbegin => ?_⟩
  · exact hinvalid c (hwithin _ ⟨c, List.prefix_refl _⟩ hc)
  · exact (hwithin w hw hbegin).length_le

/-- An open sequence is invalid before a byte that it does not go on with, and at the end. -/
theorem Opened.maximalInvalid {taken rest : List UInt8} {p : Pending} (h : Opened taken p)
    (hstop : ∀ b more, rest = b :: more → ¬ (p.low ≤ b.toNat ∧ b.toNat ≤ p.high)) :
    MaximalInvalid (taken ++ rest) taken :=
  maximalInvalid_of_stop h.ne_nil (Or.inl h.begins) h.not_encodeChar_isPrefix
    fun b more hrest hbegins => hstop b more hrest ((h.begins_iff b).mp hbegins)

theorem maximalInvalid_singleton {b : UInt8} (h : ¬ Begins [b]) (rest : List UInt8) :
    MaximalInvalid ([b] ++ rest) [b] := by
  refine maximalInvalid_of_stop (List.cons_ne_nil _ _) (Or.inr rfl) (fun c hc => ?_)
    fun d more _ hbegins => h (hbegins.of_isPrefix (List.prefix_append _ _))
  rcases List.prefix_concat_iff.mp (show _ <+: [] ++ [b] from hc) with hwhole | hnil
  · exact h ⟨c, hwhole ▸ List.prefix_refl _⟩
  · exact encodeChar_ne_nil c (List.prefix_nil.mp hnil)

theorem start_cases (b : UInt8) :
    (start b.toNat = ⟨[Char.ofNat b.toNat], none⟩ ∧ b.toNat < 0x80) ∨
      (start b.toNat = ⟨[replacement], none⟩ ∧ ¬ Begins [b]) ∨
      ∃ p, start b.toNat = ⟨[], some p⟩ ∧ Opened [b] p := by
  have hnone : b.toNat < 0xC2 ∧ 0x80 ≤ b.toNat ∨ 0xF5 ≤ b.toNat → ¬ Begins [b] := by
    rintro hb ⟨c, hc⟩
    have hlead := lead_cases hc
    have hvalid := toNat_valid c
    omega
  by_cases hone : b.toNat < 0x80
  · exact Or.inl ⟨by rw [start, if_pos hone], hone⟩
  refine Or.inr ?_
  by_cases hlow : b.toNat < 0xC2
  · exact Or.inl ⟨by rw [start, if_neg hone, if_pos hlow], hnone (by omega)⟩
  by_cases htwo : b.toNat < 0xE0
  · exact Or.inr ⟨_, start_two (by omega) htwo, opened_two (by omega) htwo⟩
  by_cases hthree : b.toNat < 0xF0
  · obtain ⟨low, high, hstart, hlow, hhigh⟩ := exists_start_three (b := b.toNat) (by omega) hthree
    exact Or.inr ⟨_, hstart, opened_three (by omega) hthree hlow hhigh⟩
  by_cases hfour : b.toNat < 0xF5
  · obtain ⟨low, high, hstart, hlow, hhigh⟩ := exists_start_four (b := b.toNat) (by omega) hfour
    exact Or.inr ⟨_, hstart, opened_four (by omega) hfour hlow hhigh⟩
  · refine Or.inl ⟨?_, hnone (by omega)⟩
    rw [start, if_neg hone, if_neg hlow, if_neg htwo, if_neg (by omega), if_neg (by omega),
      if_neg hthree, if_neg (by omega), if_neg (by omega), if_neg (by omega)]

/-! ### The division of all bytes -/

section Steps

variable {b : UInt8} {rest : List UInt8} {p : Pending}

theorem decodeFrom_of_written {written : List Char} (h : start b.toNat = ⟨written, none⟩) :
    decodeFrom none (b :: rest) = written ++ decodeFrom none rest := by
  rw [decodeFrom, step, h]

/-- **A refused byte is read again** as if nothing had been open. -/
theorem decodeFrom_refused (h : ¬ (p.low ≤ b.toNat ∧ b.toNat ≤ p.high)) :
    decodeFrom (some p) (b :: rest) = replacement :: decodeFrom none (b :: rest) := by
  rw [decodeFrom, step, Pending.next, if_neg h, decodeFrom, step]
  rfl

end Steps

/-- Whether the reader, in the state that the bytes `taken` have left it in, makes of `bytes` the
text of the parts of both. -/
def ReadsParts (taken : List UInt8) (pending : Option Pending) (bytes : List UInt8) : Prop :=
  ∃ parts, Divided (taken ++ bytes) parts ∧ decodeFrom pending bytes = parts.map Part.char

section Parts

variable {taken : List UInt8} {p : Pending} {b : UInt8} {rest : List UInt8}

theorem Opened.readsParts_nil (h : Opened taken p) : ReadsParts taken (some p) [] :=
  ⟨[.invalid taken], .invalid (h.maximalInvalid fun _ _ h => nomatch h) .nil, rfl⟩

theorem readsParts_start (hrest : ReadsParts [] none rest)
    (hopen : ∀ q, Opened [b] q → ReadsParts [b] (some q) rest) :
    ReadsParts [] none (b :: rest) := by
  obtain ⟨parts, hparts, hread⟩ := hrest
  rcases start_cases b with ⟨hstart, hone⟩ | ⟨hstart, hnot⟩ | ⟨q, hstart, hopened⟩
  · have hdivided := Divided.character (Char.ofNat b.toNat) hparts
    rw [encodeChar_of_ascii hone] at hdivided
    exact ⟨_, hdivided, by rw [decodeFrom_of_written hstart, hread]; rfl⟩
  · have hdivided := Divided.invalid (maximalInvalid_singleton hnot rest) hparts
    exact ⟨_, hdivided, by rw [decodeFrom_of_written hstart, hread]; rfl⟩
  · obtain ⟨parts, hparts, hread⟩ := hopen q hopened
    exact ⟨parts, hparts, by rw [decodeFrom_of_start hstart, hread]⟩

/-- A byte that goes on with an open sequence: it ends a character, or leaves the sequence open. -/
theorem Opened.readsParts_next (h : Opened taken p) (hlow : p.low ≤ b.toNat)
    (hhigh : b.toNat ≤ p.high) (hrest : ReadsParts [] none rest)
    (hopen : ∀ q, Opened (taken ++ [b]) q → ReadsParts (taken ++ [b]) (some q) rest) :
    ReadsParts taken (some p) (b :: rest) := by
  obtain ⟨bits, remaining, low, high⟩ := p
  rw [ReadsParts, List.append_cons]
  match remaining, h with
  | 0, h => exact absurd h.pos (Nat.lt_irrefl 0)
  | 1, h =>
    obtain ⟨parts, hparts, hread⟩ := hrest
    have hdivided := Divided.character (Char.ofNat (bits * 0x40 + (b.toNat - 0x80))) hparts
    rw [h.last hlow hhigh] at hdivided
    exact ⟨_, hdivided, by rw [decodeFrom_last hlow hhigh, hread]; rfl⟩
  | k + 2, h =>
    rw [decodeFrom_more hlow hhigh k]
    exact hopen _ (h.more hlow hhigh)

/-- A byte that does not: what was open is an invalid subpart, and the byte is read again. -/
theorem Opened.readsParts_refused (h : Opened taken p)
    (hb : ¬ (p.low ≤ b.toNat ∧ b.toNat ≤ p.high)) (hagain : ReadsParts [] none (b :: rest)) :
    ReadsParts taken (some p) (b :: rest) := by
  obtain ⟨parts, hparts, hread⟩ := hagain
  refine ⟨.invalid taken :: parts, .invalid (h.maximalInvalid ?_) hparts, ?_⟩
  · rintro c more ⟨rfl, rfl⟩
    exact hb
  · rw [decodeFrom_refused hb, hread]
    rfl

end Parts

/-- **The reader divides its bytes**, together with those that have opened a sequence. -/
theorem readsParts (bytes : List UInt8) :
    ReadsParts [] none bytes ∧ ∀ taken p, Opened taken p → ReadsParts taken (some p) bytes := by
  induction bytes with
  | nil => exact ⟨⟨[], .nil, rfl⟩, fun taken p h => h.readsParts_nil⟩
  | cons b rest ih =>
    obtain ⟨hrest, hopen⟩ := ih
    have hnone : ReadsParts [] none (b :: rest) := readsParts_start hrest (hopen [b])
    refine ⟨hnone, fun taken p h => ?_⟩
    by_cases hb : p.low ≤ b.toNat ∧ b.toNat ≤ p.high
    · exact h.readsParts_next hb.1 hb.2 hrest (hopen (taken ++ [b]))
    · exact h.readsParts_refused hb hnone

theorem exists_divided (bytes : List UInt8) :
    ∃ parts, Divided bytes parts ∧ decode bytes = parts.map Part.char :=
  (readsParts bytes).1

theorem MaximalInvalid.length_le {bytes taken more : List UInt8} (h : MaximalInvalid bytes taken)
    (h' : MaximalInvalid bytes more) : taken.length ≤ more.length := by
  rcases h.short with hbegins | hone
  · exact h'.longest taken hbegins h.isPrefix
  · rw [hone]
    exact List.length_pos_iff.mpr h'.ne_nil

/-- **There is one division.** -/
theorem Divided.unique {bytes : List UInt8} {parts others : List Part} (h : Divided bytes parts)
    (h' : Divided bytes others) : parts = others := by
  induction h generalizing others with
  | nil =>
    generalize hnil : ([] : List UInt8) = bytes at h'
    cases h' with
    | nil => rfl
    | character c _ => exact absurd (List.append_eq_nil_iff.mp hnil.symm).1 (encodeChar_ne_nil c)
    | invalid hfirst _ => exact absurd (List.append_eq_nil_iff.mp hnil.symm).1 hfirst.ne_nil
  | @character c rest parts _ ih =>
    generalize hbytes : utf8EncodeChar c ++ rest = bytes at h'
    cases h' with
    | nil => exact absurd (List.append_eq_nil_iff.mp hbytes).1 (encodeChar_ne_nil c)
    | @character d rest' others hrest =>
      obtain rfl : c = d := by
        rcases List.prefix_or_prefix_of_prefix (List.prefix_append _ rest)
          (hbytes ▸ List.prefix_append _ rest') with hbegin | hbegin
        · exact eq_of_encodeChar_isPrefix hbegin
        · exact (eq_of_encodeChar_isPrefix hbegin).symm
      rw [ih (List.append_cancel_left hbytes ▸ hrest)]
    | invalid hfirst _ => exact absurd ⟨rest, hbytes⟩ (hfirst.invalid c)
  | @invalid subpart rest parts hfirst _ ih =>
    generalize hbytes : subpart ++ rest = bytes at h' hfirst
    cases h' with
    | nil => exact absurd (List.append_eq_nil_iff.mp hbytes).1 hfirst.ne_nil
    | @character d rest' others _ => exact absurd (List.prefix_append _ rest') (hfirst.invalid d)
    | @invalid subpart' rest' others hother hrest =>
      have hlength := Nat.le_antisymm (hfirst.length_le hother) (hother.length_le hfirst)
      obtain ⟨rfl, rfl⟩ := List.append_inj hbytes hlength
      rw [ih hrest]

/-- **Bytes are read as the text of their parts.** -/
theorem Divided.decode_eq {bytes : List UInt8} {parts : List Part} (h : Divided bytes parts) :
    decode bytes = parts.map Part.char := by
  obtain ⟨others, hothers, hread⟩ := exists_divided bytes
  rw [hread, h.unique hothers]

/-- A quote ends the beginning of a character before it. -/
example : decode [0x22, 0xF0, 0x9F, 0x22, 0x40] = ['"', '\uFFFD', '"', '@'] := by decide

end LoxCalc.Text.Utf8
