import Mathlib.Data.Nat.Bitwise
import Tlv.Numeral.Base128

/-! # Arithmetic in words

Operations on words of a fixed number of bits that give nothing where the word would not be the
result of the same operation on numbers. A computation that such operations carry out to its end
is one that never overflows.
-/

namespace Tlv

namespace Word

variable {w n : Nat} {a b c : BitVec w}

def add? (a b : BitVec w) : Option (BitVec w) :=
  if a.toNat + b.toNat < 2 ^ w then some (a + b) else none

def mul? (a b : BitVec w) : Option (BitVec w) :=
  if a.toNat * b.toNat < 2 ^ w then some (a * b) else none

def sub? (a b : BitVec w) : Option (BitVec w) :=
  if b ≤ a then some (a - b) else none

/-- The bits of `a` moved up by `n`, if none of them is lost. -/
def shiftLeft? (a : BitVec w) (n : Nat) : Option (BitVec w) :=
  if n < w ∧ a.toNat * 2 ^ n < 2 ^ w then some (a <<< n) else none

/-- The bits of `a` moved down by `n`, which is less than the number of bits. -/
def shiftRight? (a : BitVec w) (n : Nat) : Option (BitVec w) :=
  if n < w then some (a >>> n) else none

theorem exists_toNat_eq (h : n < 2 ^ w) : ∃ a : BitVec w, a.toNat = n :=
  ⟨BitVec.ofNat w n, by rw [BitVec.toNat_ofNat, Nat.mod_eq_of_lt h]⟩

theorem add?_eq_some_iff : add? a b = some c ↔ c.toNat = a.toNat + b.toNat := by
  rw [add?]
  split <;> rename_i h
  · rw [Option.some_inj, ← BitVec.toNat_inj, BitVec.toNat_add, Nat.mod_eq_of_lt h, eq_comm]
  · have := c.isLt
    simp
    omega

theorem mul?_eq_some_iff : mul? a b = some c ↔ c.toNat = a.toNat * b.toNat := by
  rw [mul?]
  split <;> rename_i h
  · rw [Option.some_inj, ← BitVec.toNat_inj, BitVec.toNat_mul, Nat.mod_eq_of_lt h, eq_comm]
  · have := c.isLt
    simp
    omega

theorem sub?_eq_some_iff : sub? a b = some c ↔ a.toNat = b.toNat + c.toNat := by
  rw [sub?]
  split <;> rename_i h
  · rw [BitVec.le_def] at h
    rw [Option.some_inj, ← BitVec.toNat_inj, BitVec.toNat_sub_of_le h]
    omega
  · rw [BitVec.le_def] at h
    simp
    omega

theorem shiftLeft?_eq_some_iff (hn : n < w) :
    shiftLeft? a n = some c ↔ c.toNat = a.toNat * 2 ^ n := by
  rw [shiftLeft?]
  split <;> rename_i h
  · rw [Option.some_inj, ← BitVec.toNat_inj, BitVec.toNat_shiftLeft, Nat.shiftLeft_eq,
      Nat.mod_eq_of_lt h.2, eq_comm]
  · have := c.isLt
    simp
    omega

/-- Bits go below a word that is moved up to make room for them. -/
theorem exists_shiftLeft?_or (hn : n < w) (ha : a.toNat * 2 ^ n < 2 ^ w) (hb : b.toNat < 2 ^ n) :
    ∃ m, shiftLeft? a n = some m ∧ (m ||| b).toNat = a.toNat * 2 ^ n + b.toNat := by
  refine ⟨a <<< n, if_pos ⟨hn, ha⟩, ?_⟩
  have hor := Nat.two_pow_add_eq_or_of_lt hb a.toNat
  rw [BitVec.toNat_or, BitVec.toNat_shiftLeft, Nat.shiftLeft_eq, Nat.mod_eq_of_lt ha,
    Nat.mul_comm a.toNat, hor]

end Word

namespace Base128

open Word

variable {w : Nat} {acc : BitVec w}

theorem and_high_eq_zero_iff {b : UInt8} : b &&& 0x80 = 0 ↔ continues b = false := by
  have hlt := b.toNat_lt
  rw [← UInt8.toNat_inj, UInt8.toNat_and]
  change b.toNat &&& 2 ^ 7 = 0 ↔ _
  rw [Nat.and_two_pow, Nat.testBit_eq_decide_div_mod_eq]
  simp [continues, UInt8.le_iff_toNat_le]
  omega

theorem exists_pushed (hw : 8 ≤ w) (h : acc.toNat * 128 < 2 ^ w) (b : UInt8) :
    ∃ m, shiftLeft? acc 7 = some m ∧
      (m ||| (b &&& 0x7F).toBitVec.setWidth w).toNat = acc.toNat * 128 + bits b := by
  have hlow : ((b &&& 0x7F).toBitVec.setWidth w).toNat = bits b := by
    have hand : (b &&& 0x7F).toNat = bits b := Nat.and_two_pow_sub_one_eq_mod _ 7
    have hle : 2 ^ 8 ≤ 2 ^ w := Nat.pow_le_pow_right (by decide) hw
    have hlt := b.toNat_lt
    rw [BitVec.toNat_setWidth, UInt8.toNat_toBitVec, hand, bits, Nat.mod_eq_of_lt (by omega)]
  have hbits : bits b < 2 ^ 7 := Nat.mod_lt _ (by decide)
  obtain ⟨m, hm, hor⟩ := exists_shiftLeft?_or (by omega) h (hlow ▸ hbits)
  refine ⟨m, hm, ?_⟩
  rw [hor, hlow]
  rfl

end Base128

end Tlv
