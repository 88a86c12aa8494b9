import Tlv.Proofs.BitSequence

/-! # Named bits

A mask holds the first four octets of a bit string, the first one in the lowest place, and so it
has the bits of each octet in the opposite order. Bit strings that are made of masks end with a
one. They are the ones that are got back, if they have no more bits than a mask.
-/

namespace Tlv

/-! ## Numerals and sequences bit by bit -/

theorem BigEndian.testBit_value_reverse (s : Octets) (i : Nat) :
    (value s.reverse).testBit i = (s.getD (i / 8) 0).toNat.testBit (i % 8) := by
  induction s generalizing i with
  | nil => simp
  | cons a s ih =>
    have hvalue : value (a :: s).reverse = 2 ^ 8 * value s.reverse + a.toNat := by
      rw [List.reverse_cons, value_append, Nat.mul_comm]
      simp [value_cons]
    rw [hvalue, Nat.testBit_two_pow_mul_add _ a.toNat_lt]
    split
    · simp [Nat.div_eq_of_lt, Nat.mod_eq_of_lt, *]
    · obtain ⟨i, rfl⟩ := Nat.exists_eq_add_of_le (Nat.not_lt.1 ‹_›)
      simp [ih, Nat.add_comm 8]

theorem BigEndian.head?_octets_ne (n : Nat) : (octets n).head? ≠ some 0 := by
  induction n using Nat.strongRecOn with
  | _ n ih =>
    rcases Nat.eq_zero_or_pos n with rfl | hn
    · simp
    · rw [octets_of_pos hn]
      rcases Nat.eq_zero_or_pos (n / 256) with h0 | h0
      · simp [h0, ← UInt8.toNat_inj]
        omega
      · have hne : octets (n / 256) ≠ [] := List.ne_nil_of_length_pos (length_octets_pos h0)
        rw [List.head?_append_of_ne_nil _ hne]
        exact ih _ (Nat.div_lt_self hn (by decide))

section

variable {as bs : List Bool}

theorem getLast?_eq_some_true (h : bs.getD (bs.length - 1) false = true) :
    bs.getLast? = some true := by
  rcases List.eq_nil_or_concat bs with rfl | ⟨bs, b, rfl⟩ <;> simp_all

theorem getLast?_ne_some_false_iff :
    bs.getLast? ≠ some false ↔ bs = [] ∨ bs.getLast? = some true := by
  rcases List.eq_nil_or_concat bs with rfl | ⟨bs, b, rfl⟩ <;> simp

theorem length_le_of_getD_eq (ha : as.getLast? ≠ some false)
    (h : ∀ i, as.getD i false = bs.getD i false) : as.length ≤ bs.length := by
  rcases List.eq_nil_or_concat as with rfl | ⟨as, a, rfl⟩
  · exact Nat.zero_le _
  · have hone : a = true := by simpa using ha
    have hlast := h as.length
    by_contra hlt
    rw [List.length_concat, Nat.not_le, Nat.lt_succ_iff] at hlt
    rw [List.getD_eq_default _ _ hlt] at hlast
    simp [hone] at hlast

theorem eq_of_getD_eq (ha : as.getLast? ≠ some false) (hb : bs.getLast? ≠ some false)
    (h : ∀ i, as.getD i false = bs.getD i false) : as = bs := by
  have hlen : as.length = bs.length :=
    Nat.le_antisymm (length_le_of_getD_eq ha h) (length_le_of_getD_eq hb fun i => (h i).symm)
  refine List.ext_getElem hlen fun i hi hi' => ?_
  simpa [hi, hi'] using h i

end

namespace BitString

variable {b : BitString} {c : UInt8} {m : Nat}

/-! ## Bits of a mask -/

/-- Where a mask has the bit `i` of a bit string, and the other way round. -/
def place (i : Nat) : Nat := i / 8 * 8 + (7 - i % 8)

theorem place_div (i : Nat) : place i / 8 = i / 8 := by
  unfold place
  omega

theorem place_mod (i : Nat) : place i % 8 = 7 - i % 8 := by
  unfold place
  omega

theorem getD_flatMap_octetBits (s : Octets) (i : Nat) :
    (s.flatMap octetBits).getD i false = (BigEndian.value s.reverse).testBit (place i) := by
  rw [BigEndian.testBit_value_reverse, place_div, place_mod]
  induction s generalizing i with
  | nil => simp
  | cons a s ih =>
    rw [List.flatMap_cons]
    rcases Nat.lt_or_ge i 8 with hi | hi
    · rw [List.getD_append _ _ _ _ (by simpa using hi)]
      simp [octetBits, hi, Nat.div_eq_of_lt, Nat.mod_eq_of_lt]
    · obtain ⟨i, rfl⟩ := Nat.exists_eq_add_of_le hi
      rw [List.getD_append_right _ _ _ _ (by simp)]
      simpa [Nat.add_comm 8] using ih i

/-- Bits behind the last one in use count as zeros. -/
theorem getD_bits (b : BitString) (i : Nat) :
    b.bits.getD i false = (BigEndian.value b.cleared.reverse).testBit (place i) := by
  rw [← getD_flatMap_octetBits, flatMap_octetBits_cleared]
  rcases Nat.lt_or_ge i b.bits.length with hi | hi
  · rw [List.getD_append _ _ _ _ hi]
  · rw [List.getD_append_right _ _ _ _ hi, List.getD_eq_default _ _ hi]
    simp

theorem testBit_namedBits (b : BitString) (i : Nat) :
    b.namedBits.testBit (place i) = (decide (i < 32) && b.bits.getD i false) := by
  rw [getD_bits, namedBits, BigEndian.testBit_value_reverse, BigEndian.testBit_value_reverse,
    place_div]
  by_cases hi : i < 32
  · have hoctet : i / 8 < 4 := by omega
    simp [hi, hoctet]
  · have hoctet : ¬ i / 8 < 4 := by omega
    simp [hi, hoctet]

theorem namedBits_lt (b : BitString) : b.namedBits < UInt32.size := by
  have hlen : (b.cleared.take 4).reverse.length ≤ 4 := by simp
  exact Nat.lt_of_lt_of_le (BigEndian.value_lt _) (Nat.pow_le_pow_right (by decide) hlen)

/-! ## Bit strings of masks -/

theorem trailingZeros_spec (h : c ≠ 0) :
    c.toNat.testBit (trailingZeros c) = true ∧
      ∀ i < trailingZeros c, c.toNat.testBit i = false := by
  unfold trailingZeros
  cases hz : (List.range 8).find? fun i => c.toNat.testBit i with
  | none =>
    have hbits : ∀ i < 8, c.toNat.testBit i = false := by simpa using hz
    refine absurd (UInt8.toNat_inj.1 (Nat.eq_of_testBit_eq fun i => ?_)) h
    rw [UInt8.toNat_zero, Nat.zero_testBit]
    rcases Nat.lt_or_ge i 8 with hi | hi
    · exact hbits i hi
    · exact testBit_eq_false hi c
  | some n =>
    obtain ⟨hone, -, hzeros⟩ := List.find?_range_eq_some.1 hz
    exact ⟨hone, fun i hi => by simpa using hzeros i hi⟩

theorem data_ofNamedBits (m : Nat) : (ofNamedBits m).data = (BigEndian.octets m).reverse := by
  rw [ofNamedBits]
  split
  case h_1 h => exact (List.getLast?_eq_none_iff.1 h).symm
  case h_2 => rfl

theorem unused_ofNamedBits (h : (BigEndian.octets m).reverse.getLast? = some c) :
    (ofNamedBits m).unused = trailingZeros c := by
  rw [ofNamedBits]
  split
  case h_1 h' =>
    rw [h] at h'
    cases h'
  case h_2 h' =>
    rw [h] at h'
    cases h'
    rfl

theorem exists_ofNamedBits (h : 0 < m) :
    ∃ s c, c ≠ 0 ∧ (BigEndian.octets m).reverse = s ++ [c] ∧
      (ofNamedBits m).unused = trailingZeros c := by
  have hne : (BigEndian.octets m).reverse ≠ [] := by
    simpa using List.ne_nil_of_length_pos (BigEndian.length_octets_pos h)
  obtain ⟨s, c, hs⟩ := (List.eq_nil_or_concat _).resolve_left hne
  rw [List.concat_eq_append] at hs
  have hlast : (BigEndian.octets m).reverse.getLast? = some c := by
    rw [hs, List.getLast?_concat]
  refine ⟨s, c, ?_, hs, unused_ofNamedBits hlast⟩
  rintro rfl
  rw [List.getLast?_reverse] at hlast
  exact BigEndian.head?_octets_ne m hlast

/-- No bit that is set in a mask is unused. -/
theorem cleared_ofNamedBits (m : Nat) :
    (ofNamedBits m).cleared = (BigEndian.octets m).reverse := by
  rw [cleared, data_ofNamedBits]
  rcases Nat.eq_zero_or_pos m with rfl | hm
  · simp [mapLast]
  · obtain ⟨s, c, hc, hs, hunused⟩ := exists_ofNamedBits hm
    have hzeros := (trailingZeros_spec hc).2
    have hclear : clearLow (trailingZeros c) c = c := by
      rw [← UInt8.toNat_inj, toNat_clearLow]
      refine Nat.eq_of_testBit_eq fun i => ?_
      rw [Nat.testBit_shiftLeft, Nat.testBit_shiftRight]
      by_cases hi : trailingZeros c ≤ i
      · simp [hi]
      · simp [hi, hzeros i (Nat.not_le.1 hi)]
    rw [hs, hunused, mapLast_concat, hclear]

theorem getD_bits_ofNamedBits (m i : Nat) :
    (ofNamedBits m).bits.getD i false = m.testBit (place i) := by
  rw [getD_bits, cleared_ofNamedBits, List.reverse_reverse, BigEndian.value_octets]

theorem namedBits_ofNamedBits (h : m < UInt32.size) : (ofNamedBits m).namedBits = m := by
  have hlen : (BigEndian.octets m).length ≤ 4 := BigEndian.length_octets_le h
  rw [namedBits, cleared_ofNamedBits, List.take_of_length_le (by simpa using hlen),
    List.reverse_reverse, BigEndian.value_octets]

theorem length_ofNamedBits_le (h : m < UInt32.size) : (ofNamedBits m).length ≤ 32 := by
  have hlen : (BigEndian.octets m).length ≤ 4 := BigEndian.length_octets_le h
  rw [length, data_ofNamedBits, List.length_reverse]
  omega

theorem getLast?_bits_ofNamedBits (m : Nat) :
    (ofNamedBits m).bits.getLast? = if m = 0 then none else some true := by
  rcases Nat.eq_zero_or_pos m with rfl | hm
  · simp [bits, data_ofNamedBits]
  · obtain ⟨s, c, hc, hs, hunused⟩ := exists_ofNamedBits hm
    have hle := trailingZeros_le c
    have hlast : (ofNamedBits m).bits.length - 1 = s.length * 8 + (7 - trailingZeros c) := by
      simp only [length_bits, length, data_ofNamedBits, hs, hunused, List.length_append,
        List.length_singleton]
      omega
    have hplace : place (s.length * 8 + (7 - trailingZeros c)) = s.length * 8 + trailingZeros c := by
      unfold place
      omega
    have hdiv : (s.length * 8 + trailingZeros c) / 8 = s.length := by omega
    have hmod : (s.length * 8 + trailingZeros c) % 8 = trailingZeros c := by omega
    rw [if_neg (by omega)]
    apply getLast?_eq_some_true
    rw [getD_bits, cleared_ofNamedBits, hs, BigEndian.testBit_value_reverse, hlast, hplace, hdiv,
      hmod]
    simpa using (trailingZeros_spec hc).1

theorem ofNamedBits_namedBits_beq_iff :
    ofNamedBits b.namedBits == b ↔ b.length ≤ 32 ∧ b.bits.getLast? ≠ some false := by
  have hmask : (ofNamedBits b.namedBits).bits.getLast? ≠ some false := by
    rw [getLast?_bits_ofNamedBits]
    split <;> simp
  rw [beq_iff_bits_eq]
  constructor
  · intro h
    rw [← length_bits, ← h, length_bits]
    exact ⟨length_ofNamedBits_le b.namedBits_lt, hmask⟩
  · rintro ⟨hlen, hlast⟩
    refine eq_of_getD_eq hmask hlast fun i => ?_
    rw [getD_bits_ofNamedBits, testBit_namedBits]
    rcases Nat.lt_or_ge i 32 with hi | hi
    · simp [hi]
    · rw [List.getD_eq_default _ _ (by simp; omega), Bool.and_false]

/-- Masks and bit strings without zeros at their ends are inverse to each other. A mask is got back
from its bit string, which ends with a one unless it is empty. A bit string is got back from its
mask exactly if it has no more than 32 bits, and is empty or ends with a one. -/
theorem mask_correspondence :
    (∀ m : UInt32, (ofNamedBits m.toNat).namedBits = m.toNat ∧
      (ofNamedBits m.toNat).bits.getLast? = if m = 0 then none else some true) ∧
    ∀ b : BitString, b.namedBits < UInt32.size ∧
      (ofNamedBits b.namedBits == b ↔
        b.length ≤ 32 ∧ (b.bits = [] ∨ b.bits.getLast? = some true)) := by
  constructor
  · intro m
    refine ⟨namedBits_ofNamedBits m.toNat_lt, ?_⟩
    rw [getLast?_bits_ofNamedBits]
    simp [← UInt32.toNat_inj]
  · intro b
    rw [← getLast?_ne_some_false_iff]
    exact ⟨b.namedBits_lt, ofNamedBits_namedBits_beq_iff⟩

/-- What is set among unused bits, or behind the fourth octet, is not in the mask. -/
example : (⟨4, [0x80, 0x0F], by decide, by decide⟩ : BitString).namedBits = 0x80 ∧
    (ofOctets [1, 2, 3, 4, 5]).namedBits = 0x04030201 := by
  decide

end BitString

end Tlv
