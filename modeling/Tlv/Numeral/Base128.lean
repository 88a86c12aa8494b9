import Tlv.Octets

/-! # Base-128 numbers

High tag numbers and the components of object identifiers are written in groups of seven bits,
most significant group first. Bit 8 is set on every group but the last, so a number ends where
its last group says so.
-/

namespace Tlv.Base128

/-- The groups of `n` with bit 8 set on all of them; zero has none. -/
def continued (n : Nat) : Octets :=
  if n = 0 then [] else continued (n / 128) ++ [UInt8.ofNat (n % 128 + 128)]
termination_by n
decreasing_by exact Nat.div_lt_self (by omega) (by omega)

/-- The fewest groups that spell `n`; zero takes one. -/
def octets (n : Nat) : Octets :=
  continued (n / 128) ++ [UInt8.ofNat (n % 128)]

def width (n : Nat) : Nat :=
  Nat.log2 n / 7 + 1

/-- Another group follows this one. -/
def continues (b : UInt8) : Bool :=
  128 ≤ b

/-- The seven bits that a group carries. -/
def bits (b : UInt8) : Nat :=
  b.toNat % 128

theorem continued_zero : continued 0 = [] := by
  rw [continued]; rfl

theorem continued_of_pos {n : Nat} (h : 0 < n) :
    continued n = continued (n / 128) ++ [UInt8.ofNat (n % 128 + 128)] := by
  rw [continued, if_neg (by omega)]

theorem continued_ne_nil {n : Nat} (h : 0 < n) : continued n ≠ [] := by
  rw [continued_of_pos h]; simp

theorem width_of_lt {n : Nat} (h : n < 128) : width n = 1 := by
  rcases Nat.eq_zero_or_pos n with rfl | hn
  · rfl
  · have : Nat.log2 n < 7 := (Nat.log2_lt (by omega)).2 h
    rw [width]
    omega

/-- A group carries seven bits. -/
theorem width_of_le {n : Nat} (h : 128 ≤ n) : width n = width (n / 128) + 1 := by
  have half {m : Nat} (hm : 2 ≤ m) : Nat.log2 m = Nat.log2 (m / 2) + 1 := by
    rw [Nat.log2_def, if_pos hm]
  have : Nat.log2 n = Nat.log2 (n / 128) + 7 := by
    rw [half, half, half, half, half, half, half]
    · simp only [Nat.div_div_eq_div_mul]
    all_goals omega
  rw [width, width]
  omega

theorem length_continued {n : Nat} (h : 0 < n) : (continued n).length = width n := by
  induction n using Nat.strongRecOn with
  | _ n ih =>
    rw [continued_of_pos h, List.length_append, List.length_singleton]
    rcases Nat.lt_or_ge n 128 with hn | hn
    · rw [width_of_lt hn, Nat.div_eq_of_lt hn, continued_zero]
      rfl
    · rw [width_of_le hn, ih _ (by omega) (by omega)]

theorem length_octets (n : Nat) : (octets n).length = width n := by
  rw [octets, List.length_append, List.length_singleton]
  rcases Nat.lt_or_ge n 128 with hn | hn
  · rw [width_of_lt hn, Nat.div_eq_of_lt hn, continued_zero]
    rfl
  · rw [width_of_le hn, length_continued (by omega)]

theorem continues_high (n : Nat) : continues (UInt8.ofNat (n % 128 + 128)) = true := by
  simp [continues, UInt8.le_iff_toNat_le]; omega

theorem continues_low (n : Nat) : continues (UInt8.ofNat (n % 128)) = false := by
  simp [continues, UInt8.le_iff_toNat_le]; omega

end Tlv.Base128
