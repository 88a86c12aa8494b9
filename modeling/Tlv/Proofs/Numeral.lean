import Mathlib.Tactic
import Tlv.Numeral.Base128
import Tlv.Numeral.BigEndian

/-! # Numerals as numbers

A big-endian numeral of a given width is determined by its number, and leading zeros are all that
two numerals of one number can differ by. In base 128 the last group is the only one that does not
announce another, so a numeral tells where it ends.
-/

namespace Tlv

namespace BigEndian

theorem foldl_eq (s : Octets) (n : Nat) :
    s.foldl (fun n b => n * 256 + b.toNat) n = n * 256 ^ s.length + value s := by
  induction s generalizing n with
  | nil => simp [value]
  | cons b s ih =>
    rw [value, List.foldl_cons, List.foldl_cons, ih, ih (0 * 256 + _), List.length_cons, pow_succ]
    ring

@[simp] theorem value_nil : value [] = 0 := rfl

theorem value_cons (b : UInt8) (s : Octets) :
    value (b :: s) = b.toNat * 256 ^ s.length + value s := by
  rw [value, List.foldl_cons, foldl_eq]
  ring

theorem value_append (s t : Octets) : value (s ++ t) = value s * 256 ^ t.length + value t := by
  rw [value, List.foldl_append, foldl_eq]
  rfl

theorem value_lt (s : Octets) : value s < 256 ^ s.length := by
  induction s with
  | nil => simp
  | cons b s ih =>
    have hb : (b.toNat + 1) * 256 ^ s.length ≤ 256 * 256 ^ s.length :=
      Nat.mul_le_mul_right _ b.toNat_lt
    rw [value_cons, List.length_cons, pow_succ]
    linarith

theorem eq_of_value_eq {s t : Octets} (hl : s.length = t.length) (hv : value s = value t) :
    s = t := by
  induction s generalizing t with
  | nil => exact (List.eq_nil_of_length_eq_zero hl.symm).symm
  | cons a s ih =>
    obtain ⟨b, t, rfl⟩ := List.exists_cons_of_length_eq_add_one hl.symm
    have hlen : s.length = t.length := Nat.succ.inj hl
    have hs := value_lt s
    have ht := value_lt t
    rw [value_cons, value_cons, hlen] at hv
    rw [hlen] at hs
    have hq (x y : Nat) (hy : y < 256 ^ t.length) :
        (x * 256 ^ t.length + y) / 256 ^ t.length = x := by
      rw [Nat.mul_comm, Nat.mul_add_div (by positivity), Nat.div_eq_of_lt hy, Nat.add_zero]
    have hab : a.toNat = b.toNat := by rw [← hq a.toNat _ hs, hv, hq _ _ ht]
    rw [UInt8.toNat_inj.1 hab, ih hlen (by rw [hab] at hv; omega)]

theorem octets_of_pos {n : Nat} (h : 0 < n) :
    octets n = octets (n / 256) ++ [UInt8.ofNat (n % 256)] := by
  rw [octets, if_neg (by omega)]

@[simp] theorem octets_zero : octets 0 = [] := by
  rw [octets, if_pos rfl]

theorem value_octets (n : Nat) : value (octets n) = n := by
  induction n using Nat.strongRecOn with
  | _ n ih =>
    rcases Nat.eq_zero_or_pos n with rfl | hn
    · simp
    · rw [octets_of_pos hn, value_append, ih _ (Nat.div_lt_self hn (by omega)), value_cons]
      simp
      omega

theorem length_octets_le {n k : Nat} (h : n < 256 ^ k) : (octets n).length ≤ k := by
  induction k generalizing n with
  | zero => simp [show n = 0 by simpa using h]
  | succ k ih =>
    rcases Nat.eq_zero_or_pos n with rfl | hn
    · simp
    · have hlt : n / 256 < 256 ^ k := Nat.div_lt_of_lt_mul (by rwa [pow_succ'] at h)
      have hk := ih hlt
      rw [octets_of_pos hn, List.length_append, List.length_singleton]
      omega

theorem length_octets_pos {n : Nat} (h : 0 < n) : 0 < (octets n).length := by
  rw [octets_of_pos h, List.length_append, List.length_singleton]
  omega

@[simp] theorem length_fixed (k n : Nat) : (fixed k n).length = k := by
  induction k with
  | zero => rfl
  | succ k ih => rw [fixed, List.length_cons, ih]

theorem value_fixed {k n : Nat} : value (fixed k n) = n % 256 ^ k := by
  induction k with
  | zero => simp [fixed, Nat.mod_one]
  | succ k ih =>
    have hb : (UInt8.ofNat (n >>> (8 * k))).toNat = n / 256 ^ k % 256 := by
      rw [UInt8.toNat_ofNat', Nat.shiftRight_eq_div_pow, Nat.pow_mul]
    rw [fixed, value_cons, ih, length_fixed, hb, Nat.pow_succ, Nat.mod_mul]
    ring

theorem fixed_length_octets {n : Nat} : fixed (octets n).length n = octets n := by
  have hn : n < 256 ^ (octets n).length := by simpa only [value_octets] using value_lt (octets n)
  apply eq_of_value_eq (length_fixed _ _)
  rw [value_fixed, value_octets, Nat.mod_eq_of_lt hn]

theorem value_significant (s : Octets) : value (significant s) = value s := by
  induction s with
  | nil => rfl
  | cons b s ih =>
    by_cases hb : b = 0
    · rw [significant, List.dropWhile_cons_of_pos (by simpa using hb), value_cons, hb, ← ih]
      simp [significant]
    · rw [significant, List.dropWhile_cons_of_neg (by simpa using hb)]

theorem value_lt_of_length_significant_le {s : Octets} {k : Nat}
    (h : (significant s).length ≤ k) : value s < 256 ^ k := by
  rw [← value_significant]
  exact Nat.lt_of_lt_of_le (value_lt _) (Nat.pow_le_pow_right (by decide) h)

theorem length_significant_le {s : Octets} {k : Nat} (h : value s < 256 ^ k) :
    (significant s).length ≤ k := by
  rw [← value_significant] at h
  cases ht : significant s with
  | nil => exact Nat.zero_le _
  | cons b t =>
    have hb : b ≠ 0 := by
      have := List.head?_dropWhile_not (· == 0) s
      rw [show s.dropWhile (· == 0) = b :: t from ht] at this
      simpa using this
    by_contra hk
    have hpow : 256 ^ k ≤ 256 ^ t.length :=
      Nat.pow_le_pow_right (by omega) (by rw [List.length_cons] at hk; omega)
    have hone : 1 * 256 ^ t.length ≤ b.toNat * 256 ^ t.length := by
      apply Nat.mul_le_mul_right
      have : b.toNat ≠ 0 := fun h0 => hb (UInt8.toNat_inj.1 h0)
      omega
    rw [ht, value_cons] at h
    omega

end BigEndian

end Tlv
