import LoxCalc.Proofs.Text.Division

/-!
# ASCII among other bytes

A byte below `0x80` is a character of its own, and stands in the encoding of no other one.
No invalid subpart has one either (`Divided.hidesNothing`).  So **nothing that is not well formed
swallows a byte below `0x80`**: in the text of some parts the ASCII characters are the bytes below
`0x80`, in order (`filter_ascii_map_char`), and the newlines are the bytes `0x0A`
(`count_newline_map_char`).
-/

namespace LoxCalc.Text.Utf8

open String (utf8EncodeChar)

def asciiCharacters (bytes : List UInt8) : List Char :=
  (bytes.filter (·.toNat < 0x80)).map fun b => Char.ofNat b.toNat

theorem asciiCharacters_append (bytes more : List UInt8) :
    asciiCharacters (bytes ++ more) = asciiCharacters bytes ++ asciiCharacters more := by
  rw [asciiCharacters, List.filter_append, List.map_append]
  rfl

theorem asciiCharacters_eq_nil {bytes : List UInt8} (h : ∀ b ∈ bytes, 0x80 ≤ b.toNat) :
    asciiCharacters bytes = [] := by
  have hfilter : bytes.filter (·.toNat < 0x80) = [] := by
    refine List.filter_eq_nil_iff.mpr fun b hb => ?_
    simpa using h b hb
  rw [asciiCharacters, hfilter]
  rfl

theorem le_of_mem_continuation {b : UInt8} (k n : Nat) (h : b ∈ continuation k n) :
    0x80 ≤ b.toNat := by
  induction k with
  | zero => cases h
  | succ k ih =>
    rcases List.mem_cons.mp h with rfl | h
    · rw [toNat_ofNat_of_lt (sixBits_lt k n)]
      exact (sixBits_range k n).1
    · exact ih h

theorem le_of_mem_encodeChar {c : Char} (hc : 0x80 ≤ c.toNat) {b : UInt8}
    (h : b ∈ utf8EncodeChar c) : 0x80 ≤ b.toNat := by
  obtain ⟨k, lead, hencode, hlt, hlead⟩ := exists_lead hc
  rw [hencode] at h
  rcases List.mem_cons.mp h with rfl | h
  · rw [toNat_ofNat_of_lt hlt]
    omega
  · exact le_of_mem_continuation k _ h

/-- **No invalid subpart has a byte below `0x80`**: such a byte is a character. -/
theorem MaximalInvalid.le_of_mem {bytes subpart : List UInt8} (h : MaximalInvalid bytes subpart)
    {b : UInt8} (hb : b ∈ subpart) : 0x80 ≤ b.toNat := by
  rw [← Nat.not_lt]
  intro hlt
  have hsingle : subpart = [b] := by
    rcases h.short with ⟨c, hc⟩ | hone
    · have hascii : c.toNat < 0x80 := by
        rw [← Nat.not_le]
        intro hle
        exact Nat.not_lt.mpr (le_of_mem_encodeChar hle (hc.subset hb)) hlt
      rw [encodeChar_one hascii] at hc
      rcases List.prefix_concat_iff.mp (show subpart <+: [] ++ [_] from hc) with rfl | hnil
      · rw [List.mem_singleton.mp hb]
        rfl
      · exact absurd (List.prefix_nil.mp hnil) h.ne_nil
    · obtain ⟨d, rfl⟩ := List.length_eq_one_iff.mp hone
      rw [List.mem_singleton.mp hb]
  have hbegin := h.isPrefix
  rw [hsingle, ← encodeChar_of_ascii hlt] at hbegin
  exact h.invalid _ hbegin

/-- Whether a part is no invalid subpart with a byte below `0x80`. -/
def Part.HidesNothing : Part → Prop
  | .character _ => True
  | .invalid subpart => ∀ b ∈ subpart, 0x80 ≤ b.toNat

namespace Divided

variable {bytes : List UInt8} {parts : List Part}

theorem flatMap_bytes (h : Divided bytes parts) : parts.flatMap Part.bytes = bytes := by
  induction h with
  | nil => rfl
  | character c _ ih | invalid hfirst _ ih => rw [List.flatMap_cons, ih]; rfl

theorem hidesNothing (h : Divided bytes parts) : ∀ part ∈ parts, part.HidesNothing := by
  induction h with
  | nil => exact fun part hpart => nomatch hpart
  | character c _ ih => exact List.forall_mem_cons.mpr ⟨trivial, ih⟩
  | invalid hfirst _ ih => exact List.forall_mem_cons.mpr ⟨fun b hb => hfirst.le_of_mem hb, ih⟩

end Divided

theorem Part.filter_ascii_char {part : Part} (h : part.HidesNothing) :
    [part.char].filter (·.toNat < 0x80) = asciiCharacters part.bytes := by
  cases part with
  | invalid subpart => exact (asciiCharacters_eq_nil h).symm
  | character c =>
    by_cases hc : c.toNat < 0x80
    · have hbyte : (UInt8.ofNat c.toNat).toNat = c.toNat := toNat_ofNat_of_lt (by omega)
      simp [asciiCharacters, bytes, char, encodeChar_one hc, hbyte, hc]
    · have hnone : asciiCharacters (Part.character c).bytes = [] :=
        asciiCharacters_eq_nil fun b hb => le_of_mem_encodeChar (Nat.not_lt.mp hc) hb
      simp [hnone, char, hc]

/-- **The ASCII characters of parts are their bytes below `0x80`.** -/
theorem filter_ascii_map_char {parts : List Part} (h : ∀ part ∈ parts, part.HidesNothing) :
    (parts.map Part.char).filter (·.toNat < 0x80) = asciiCharacters (parts.flatMap Part.bytes) := by
  induction parts with
  | nil => rfl
  | cons part parts ih =>
    obtain ⟨hpart, hparts⟩ := List.forall_mem_cons.mp h
    rw [List.flatMap_cons, asciiCharacters_append, ← ih hparts, ← Part.filter_ascii_char hpart,
      ← List.filter_append]
    rfl

theorem count_asciiCharacters (bytes : List UInt8) :
    (asciiCharacters bytes).count '\n' = bytes.count 0x0A := by
  induction bytes with
  | nil => rfl
  | cons b bytes ih =>
    rw [← List.singleton_append, asciiCharacters_append, List.count_append, List.count_append, ih]
    congr 1
    by_cases hb : b.toNat < 0x80
    · by_cases hnewline : b = 0x0A
      · rw [hnewline]
        rfl
      · have hne : Char.ofNat b.toNat ≠ '\n' := by
          intro heq
          have hencode := encodeChar_of_ascii hb
          rw [heq] at hencode
          exact hnewline (List.cons.inj hencode).1.symm
        simp [asciiCharacters, hb, hne, hnewline]
    · have hne : b ≠ 0x0A := by
        rintro rfl
        exact hb (by decide)
      simp [asciiCharacters, hb, hne]

theorem count_newline_map_char {parts : List Part} (h : ∀ part ∈ parts, part.HidesNothing) :
    (parts.map Part.char).count '\n' = (parts.flatMap Part.bytes).count 0x0A := by
  rw [← count_asciiCharacters, ← filter_ascii_map_char h, List.count_filter (by decide)]

end LoxCalc.Text.Utf8
