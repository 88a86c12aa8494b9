import Tlv.Proofs.BitSequence
import Tlv.Proofs.Words

/-! # Bit strings in words

An octet has more bits than are unused, and data has at least as many. So the mask of the bits in
use is shifted by less than an octet, no length is negative, and four octets go into a word of 32
bits.
-/

namespace Tlv

open Word

namespace BitString

variable {b : BitString} {s : Octets}

/-- Ones for the bits in use of the last octet, shifted there by less than an octet. -/
def mask? (b : BitString) : Option UInt8 :=
  if b.unused < 8 then some (0xFF <<< UInt8.ofNat b.unused) else none

def maskedData? (b : BitString) : Option Octets := do
  let mask ← b.mask?
  return mapLast (· &&& mask) b.data

/-- The contents, in which the mask is put on the last octet if DER asks for it and it makes a
difference. -/
def maskedContents? (rule : Rule) (b : BitString) : Option Octets := do
  let data ← if rule = .der ∧ 0 < b.unused then b.maskedData? else some b.data
  return if data.getLast? = b.data.getLast? then b.contents else UInt8.ofNat b.unused :: data

def checkedLength? (b : BitString) : Option Nat :=
  if b.unused ≤ b.data.length * 8 then some (b.data.length * 8 - b.unused) else none

/-- Puts octets into the word above the `i` octets that it holds, until it holds four. The mask is
for the last octet. -/
def namedBitsFrom? (mask : UInt8) (i : Nat) (value : BitVec 32) : Octets → Option (BitVec 32)
  | [] => some value
  | a :: s =>
    if i = 4 then some value
    else do
      let octet := if s = [] then a &&& mask else a
      namedBitsFrom? mask (i + 1) (value ||| (← shiftLeft? (octet.toBitVec.setWidth 32) (8 * i))) s

/-- The first four octets in a word, the first one in the lowest place. -/
def namedBitsWord? (b : BitString) : Option (BitVec 32) := do
  namedBitsFrom? (← b.mask?) 0 0 b.data

/-! ## Masks -/

theorem clearLow_eq_and {n : Nat} (hn : n < 8) (a : UInt8) :
    clearLow n a = a &&& (0xFF <<< UInt8.ofNat n) := by
  have hmask : (0xFF <<< UInt8.ofNat n : UInt8).toNat = (2 ^ 8 - 1) <<< n % 2 ^ 8 := by
    rw [UInt8.toNat_shiftLeft, UInt8.toNat_ofNat']
    congr 2
    omega
  rw [← UInt8.toNat_inj, toNat_clearLow, UInt8.toNat_and, hmask]
  apply Nat.eq_of_testBit_eq
  intro i
  rw [Nat.testBit_and, Nat.testBit_mod_two_pow, Nat.testBit_shiftLeft, Nat.testBit_shiftLeft,
    Nat.testBit_shiftRight, Nat.testBit_two_pow_sub_one]
  by_cases hi : i < 8
  · by_cases h : n ≤ i <;> simp [h, hi]
    omega
  · have ha := testBit_eq_false (Nat.not_lt.1 hi) a
    by_cases h : n ≤ i <;> simp [h, ha]

theorem mask?_eq (b : BitString) : b.mask? = some (0xFF <<< UInt8.ofNat b.unused) :=
  if_pos (Nat.lt_succ_of_le b.unused_le)

theorem cleared_eq_mapLast_and (b : BitString) :
    b.cleared = mapLast (· &&& (0xFF <<< UInt8.ofNat b.unused)) b.data := by
  rw [cleared]
  congr 1
  ext1 a
  exact clearLow_eq_and (Nat.lt_succ_of_le b.unused_le) a

theorem maskedData?_eq (b : BitString) : b.maskedData? = some b.cleared := by
  rw [maskedData?, mask?_eq, cleared_eq_mapLast_and]
  rfl

theorem getLast?_cleared_eq_iff (b : BitString) :
    b.cleared.getLast? = b.data.getLast? ↔ b.cleared = b.data := by
  rw [cleared]
  rcases List.eq_nil_or_concat b.data with h | ⟨s, a, h⟩ <;> simp [h, mapLast]

theorem maskedContents?_eq (rule : Rule) (b : BitString) :
    b.maskedContents? rule = some (b.contentsUnder rule) := by
  rw [maskedContents?, contentsUnder, maskedData?_eq]
  by_cases hder : rule = .der
  · rw [if_pos hder]
    rcases Nat.eq_zero_or_pos b.unused with hzero | hpos
    · rw [if_neg (by omega), cleared_of_unused_eq_zero hzero]
      simp [contents]
    · rw [if_pos ⟨hder, hpos⟩, Option.bind_eq_bind, Option.bind_some]
      dsimp only
      split <;> rename_i h
      · rw [(getLast?_cleared_eq_iff b).1 h]
        rfl
      · rfl
  · rw [if_neg hder, if_neg fun h => hder h.1]
    simp [contents]

theorem checkedLength?_eq (b : BitString) : b.checkedLength? = some b.length :=
  if_pos b.unused_le_length

/-! ## Named bits -/

theorem mapLast_cons (f : UInt8 → UInt8) (a : UInt8) (s : Octets) :
    mapLast f (a :: s) = (if s = [] then f a else a) :: mapLast f s := by
  rcases List.eq_nil_or_concat s with rfl | ⟨s, b, rfl⟩
  · rfl
  · rw [if_neg (by simp), List.concat_eq_append, mapLast_concat]
    exact mapLast_concat f (a :: s) b

theorem exists_namedBitsFrom? (mask : UInt8) {i k : Nat} (hik : i + k = 4) (value : BitVec 32)
    (hvalue : value.toNat < 2 ^ (8 * i)) (s : Octets) :
    ∃ v, namedBitsFrom? mask i value s = some v ∧ v.toNat =
      value.toNat + 2 ^ (8 * i) * BigEndian.value ((mapLast (· &&& mask) s).take k).reverse := by
  induction s generalizing i k value with
  | nil => exact ⟨value, rfl, by simp [mapLast]⟩
  | cons a s ih =>
    rw [namedBitsFrom?, mapLast_cons]
    split
    case isTrue hi =>
      obtain rfl : k = 0 := by omega
      exact ⟨value, rfl, by simp⟩
    case isFalse hi =>
      obtain ⟨k, rfl⟩ := Nat.exists_eq_succ_of_ne_zero (show k ≠ 0 by omega)
      dsimp only
      generalize (if s = [] then a &&& mask else a) = octet
      have hoctet := octet.toNat_lt
      have hplace : octet.toNat * 2 ^ (8 * i) ≤ 255 * 2 ^ (8 * i) :=
        Nat.mul_le_mul_right _ (by omega)
      have hnext : 2 ^ (8 * (i + 1)) = 256 * 2 ^ (8 * i) := by
        rw [Nat.mul_succ, Nat.pow_add, Nat.mul_comm]
      have hroom : 2 ^ (8 * (i + 1)) ≤ 2 ^ 32 := Nat.pow_le_pow_right (by decide) (by omega)
      obtain ⟨shifted, hshifted⟩ : ∃ c : BitVec 32, c.toNat = octet.toNat * 2 ^ (8 * i) :=
        exists_toNat_eq (by omega)
      have hshift : shiftLeft? (octet.toBitVec.setWidth 32) (8 * i) = some shifted := by
        rw [shiftLeft?_eq_some_iff (by omega), hshifted, BitVec.toNat_setWidth,
          UInt8.toNat_toBitVec, Nat.mod_eq_of_lt (by omega)]
      have hor : (value ||| shifted).toNat = value.toNat + octet.toNat * 2 ^ (8 * i) := by
        rw [BitVec.toNat_or, hshifted, Nat.or_comm, Nat.mul_comm,
          ← Nat.two_pow_add_eq_or_of_lt hvalue, Nat.add_comm]
      obtain ⟨v, hv, heq⟩ := ih (show i + 1 + k = 4 by omega) (value ||| shifted) (by omega)
      refine ⟨v, by rw [hshift, Option.bind_eq_bind, Option.bind_some, hv], ?_⟩
      rw [heq, hor, hnext, List.take_succ_cons, List.reverse_cons, BigEndian.value_append]
      simp [BigEndian.value_cons]
      ring

theorem exists_namedBitsWord? (b : BitString) :
    ∃ v, b.namedBitsWord? = some v ∧ v.toNat = b.namedBits := by
  obtain ⟨v, hv, heq⟩ := exists_namedBitsFrom? (0xFF <<< UInt8.ofNat b.unused)
    (show 0 + 4 = 4 from rfl) 0 (by decide) b.data
  refine ⟨v, by rw [namedBitsWord?, mask?_eq, Option.bind_eq_bind, Option.bind_some, hv], ?_⟩
  rw [heq, namedBits, cleared_eq_mapLast_and]
  simp

/-! ## What a bit string stands for -/

/-- What is computed from the bit string stays in the words it is computed in. -/
structure InWords (b : BitString) : Prop where
  unused_le : b.unused ≤ 7
  unused_of_nil : b.data = [] → b.unused = 0
  checkedLength? : b.checkedLength? = some b.length
  maskedData? : b.maskedData? = some b.cleared
  maskedContents? : ∀ rule, b.maskedContents? rule = some (b.contentsUnder rule)
  namedBitsWord? : ∃ v, b.namedBitsWord? = some v ∧ v.toNat = b.namedBits

theorem inWords (b : BitString) : b.InWords where
  unused_le := b.unused_le
  unused_of_nil := b.unused_of_nil
  checkedLength? := b.checkedLength?_eq
  maskedData? := b.maskedData?_eq
  maskedContents? rule := maskedContents?_eq rule b
  namedBitsWord? := b.exists_namedBitsWord?

theorem exists_ofPadded_iff {n : Nat} :
    (∃ b, ofPadded s n = .ok b) ↔ n ≤ 7 ∧ (s = [] → n = 0) := by
  constructor
  · rintro ⟨b, h⟩
    rw [ofPadded] at h
    split at h
    · split at h
      · exact ⟨‹_›, ‹_›⟩
      · cases h
    · cases h
  · rintro ⟨hle, hnil⟩
    exact ⟨⟨n, s, hle, hnil⟩, by rw [ofPadded, dif_pos hle, dif_pos hnil]⟩

theorem ofOctets_octets {options : ReaderOptions} (h : b.data.length < options.lengthLimit.toNat) :
    Value.ofOctets options ((Value.bitString b).octets options.rule) =
      .ok (.bitString (b.under options.rule)) := by
  have hv : (Value.bitString b).Valid := by simp [Value.Valid]
  have hw : ((Value.bitString b).wire options.rule).Within options := by
    constructor
    · exact Nat.zero_le _
    · change (b.contentsUnder options.rule).length ≤ _
      rw [contentsUnder, List.length_cons, apply_ite List.length, cleared, length_mapLast, ite_self]
      exact h
  rw [Value.ofOctets_octets hv rfl hw, Value.reread]

/-- A BIT STRING is a sequence of bits. No more than seven bits are unused, and none if there is no
data, so that every shift and difference stays in its word. Bit strings are equal exactly if they
have as many bits and the same ones. DER writes what the bits are packed into, and takes that and
nothing else. The other rules write the octets as they are kept, and under each rule a bit string
is read back as an equal one. -/
theorem sequence_of_bits :
    (∀ b : BitString, b.InWords) ∧
    (∀ s n, (∃ b, ofPadded s n = .ok b) ↔ n ≤ 7 ∧ (s = [] → n = 0)) ∧
    (∀ a b : BitString, a == b ↔ a.length = b.length ∧ a.bits = b.bits) ∧
    (∀ bs, (ofBits bs).bits = bs) ∧
    (∀ b : BitString, b.contentsUnder .der = (ofBits b.bits).contents ∧
      (Value.bitString b).der = (Value.bitString (ofBits b.bits)).der ∧
      ofContents .der (b.contentsUnder .der) = .ok (ofBits b.bits) ∧ ofBits b.bits == b) ∧
    (∀ s, (∃ b, ofContents .der s = .ok b) ↔ ∃ bs, s = (ofBits bs).contents) ∧
    (∀ rule, rule ≠ .der → ∀ b : BitString,
      b.contentsUnder rule = b.contents ∧ ofContents rule b.contents = .ok b) ∧
    (∀ rule s b, ofContents rule s = .ok b → b.contents = s) ∧
    ∀ options (b : BitString), b.data.length < options.lengthLimit.toNat →
      ∃ c, Value.ofOctets options ((Value.bitString b).octets options.rule) = .ok (.bitString c) ∧
        c == b := by
  refine ⟨inWords, fun s n => exists_ofPadded_iff, ?_, bits_ofBits, ?_,
    fun s => exists_ofContents_der_iff, ?_, fun _ _ _ h => (contents_of_ofContents h).1.symm,
    fun options b h => ⟨_, ofOctets_octets h, under_beq⟩⟩
  · intro a b
    rw [beq_iff_bits_eq, ← length_bits, ← length_bits]
    exact ⟨fun h => ⟨congrArg List.length h, h⟩, And.right⟩
  · intro b
    refine ⟨contentsUnder_der b, ?_, ?_, ofBits_bits_beq b⟩
    · exact Value.der_eq_of_beq (v := .bitString b) (beq_iff_bits_eq.2 (bits_ofBits b.bits).symm)
    · rw [contentsUnder_der, ofContents_ofBits]
  · intro rule h b
    exact ⟨contentsUnder_of_ne_der h b, ofContents_contents fun hder => absurd hder h⟩

/-- Three ones among the unused bits are written under DL, and read back. -/
theorem sequence_of_bits_looseOctet :
    Rule.dl ≠ .der ∧ 1 < (ReaderOptions.ofRule .dl).lengthLimit.toNat ∧
      ofContents .dl [3, 0xFF] = .ok ⟨3, [0xFF], by decide, by decide⟩ ∧
      ∃ c, Value.ofOctets (.ofRule .dl) [0x03, 2, 3, 0xFF] = .ok (.bitString c) ∧
        c == ⟨3, [0xFF], by decide, by decide⟩ := by
  have hw : (Value.bitString ⟨3, [0xFF], by decide, by decide⟩).octets .dl =
      [0x03, 2, 3, 0xFF] := by cbv
  obtain ⟨-, -, -, -, -, -, hkept, -, hread⟩ := sequence_of_bits
  refine ⟨by decide, by decide, (hkept .dl (by decide) ⟨3, [0xFF], _, _⟩).2, ?_⟩
  rw [← hw]
  exact hread (.ofRule .dl) _ (by decide)

end BitString

end Tlv
