import Tlv.Integer
import Tlv.Proofs.Contents
import Tlv.Proofs.Equality
import Tlv.Proofs.Numeral

/-! # Integers as numbers

Two's complement octets of a given width stand for the numbers in a range about zero, one each.
Octets that only repeat the sign do not change the number, and octets without them are the fewest
that the number has. So an integer is settled by its number, and all its views are views of that.
-/

namespace Tlv

namespace BigEndian

variable {s : Octets}

theorem value_cons_zero (s : Octets) : value (0 :: s) = value s := by
  simp [value_cons]

theorem length_le_of_value_eq {b : UInt8} {s t : Octets} (hb : b ≠ 0)
    (h : value t = value (b :: s)) : (b :: s).length ≤ t.length := by
  have hpos : 1 ≤ b.toNat := Nat.pos_of_ne_zero fun h0 => hb (UInt8.toNat_inj.1 h0)
  have hlt : 256 ^ s.length < 256 ^ t.length := by
    calc 256 ^ s.length ≤ b.toNat * 256 ^ s.length := Nat.le_mul_of_pos_left _ hpos
      _ ≤ value t := by rw [h, value_cons]; exact Nat.le_add_right _ _
      _ < 256 ^ t.length := value_lt t
  exact (Nat.pow_lt_pow_iff_right (by norm_num)).1 hlt

theorem value_replicate_zero_append (k : Nat) (s : Octets) :
    value (List.replicate k 0 ++ s) = value s := by
  induction k with
  | zero => rfl
  | succ k ih => rw [List.replicate_succ, List.cons_append, value_cons_zero, ih]

/-! ### Words -/

theorem ofWord_eq_fixed (w : UInt64) : ofWord w = fixed 8 w.toNat := by
  simp [ofWord, fixed, ← UInt8.toNat_inj]

theorem value_ofWord (w : UInt64) : value (ofWord w) = w.toNat := by
  rw [ofWord_eq_fixed, value_fixed]
  exact Nat.mod_eq_of_lt w.toNat_lt

theorem toNat_pushed {w : UInt64} (h : w.toNat * 256 < 2 ^ 64) (b : UInt8) :
    (w <<< 8 ||| b.toUInt64).toNat = w.toNat * 256 + b.toNat := by
  have hor : 2 ^ 8 * w.toNat + b.toNat = 2 ^ 8 * w.toNat ||| b.toNat :=
    Nat.two_pow_add_eq_or_of_lt b.toNat_lt w.toNat
  have hshift : (w <<< 8).toNat = 2 ^ 8 * w.toNat := by
    rw [UInt64.toNat_shiftLeft, show (8 : UInt64).toNat % 64 = 8 from rfl, Nat.shiftLeft_eq,
      Nat.mod_eq_of_lt (by omega), Nat.mul_comm]
  rw [UInt64.toNat_or, UInt8.toNat_toUInt64, hshift, ← hor]
  omega

/-- No bit is lost from the word while the number of all octets fits it. -/
theorem toNat_foldl_pushed {w : UInt64}
    (h : w.toNat * 256 ^ s.length + value s < 2 ^ 64) :
    (s.foldl (fun (w : UInt64) b => w <<< 8 ||| b.toUInt64) w).toNat =
      w.toNat * 256 ^ s.length + value s := by
  induction s generalizing w with
  | nil => simp
  | cons b s ih =>
    have hsplit : w.toNat * 256 ^ (b :: s).length + value (b :: s) =
        (w.toNat * 256 + b.toNat) * 256 ^ s.length + value s := by
      rw [value_cons, List.length_cons, pow_succ]
      ring
    have hle : w.toNat * 256 + b.toNat ≤ (w.toNat * 256 + b.toNat) * 256 ^ s.length :=
      Nat.le_mul_of_pos_right _ (by positivity)
    have hpushed := toNat_pushed (w := w) (by omega) b
    rw [hsplit, ← hpushed] at h
    rw [List.foldl_cons, ih h, hsplit, hpushed]

theorem toNat_word (h : s.length ≤ 8) : (word s).toNat = value s := by
  have hlt : value s < 256 ^ 8 :=
    Nat.lt_of_lt_of_le (value_lt s) (Nat.pow_le_pow_right (by decide) h)
  have hfold := toNat_foldl_pushed (s := s) (w := 0) (by simpa using hlt)
  simpa [word] using hfold

theorem length_filled {fill : UInt8} (h : s.length ≤ 8) : (filled fill s).length = 8 := by
  rw [filled, List.length_append, List.length_replicate]
  omega

end BigEndian

namespace TwosComplement

variable {a b : UInt8} {s t : Octets}

/-- The signed number of the octet that holds the sign. -/
def leading (b : UInt8) : Int :=
  if b.toNat < 128 then b.toNat else b.toNat - 256

theorem foldl_eq (s : Octets) (n : Int) :
    s.foldl (fun n b => n * 256 + (b.toNat : Int)) n = n * 256 ^ s.length + BigEndian.value s := by
  induction s generalizing n with
  | nil => simp
  | cons b s ih =>
    rw [List.foldl_cons, ih, List.length_cons, BigEndian.value_cons, pow_succ]
    push_cast
    ring

theorem lt_high_iff : b < 0x80 ↔ b.toNat < 128 := UInt8.lt_iff_toNat_lt

theorem isNegative_cons : isNegative (b :: s) = true ↔ ¬ b < 0x80 := by
  rw [isNegative, decide_eq_true_eq, UInt8.not_lt]

theorem leading_bounds (b : UInt8) : -128 ≤ leading b ∧ leading b ≤ 127 := by
  have := b.toNat_lt
  rw [leading]
  split <;> omega

/-- The number is that of the octets without a sign, less the whole range if the sign is set. -/
theorem value_eq_sub (s : Octets) :
    value s = BigEndian.value s - if isNegative s then 256 ^ s.length else 0 := by
  rw [value, foldl_eq]
  split <;> ring

theorem value_cons (b : UInt8) (s : Octets) :
    value (b :: s) = leading b * 256 ^ s.length + BigEndian.value s := by
  simp only [value_eq_sub, BigEndian.value_cons, List.length_cons, pow_succ, isNegative_cons,
    lt_high_iff, leading]
  by_cases hb : b.toNat < 128
  · rw [if_neg (not_not_intro hb), if_pos hb]
    push_cast
    ring
  · rw [if_pos hb, if_neg hb]
    push_cast
    ring

theorem isNegative_iff (s : Octets) : isNegative s = true ↔ value s < 0 := by
  have hs : (BigEndian.value s : Int) < 256 ^ s.length := by
    exact_mod_cast BigEndian.value_lt s
  rw [value_eq_sub]
  by_cases h : isNegative s = true
  · rw [if_pos h]
    exact iff_of_true h (by linarith)
  · rw [if_neg h]
    exact iff_of_false h (by omega)

/-! ## Widths -/

/-- The number has a two's complement form of `k` octets. -/
def Fits (k : Nat) (v : Int) : Prop := -256 ^ k ≤ 2 * v ∧ 2 * v < 256 ^ k

theorem Fits.mono {k l : Nat} {v : Int} (h : Fits k v) (hkl : k ≤ l) : Fits l v := by
  have hpow : (256 : Int) ^ k ≤ 256 ^ l := pow_le_pow_right₀ (by norm_num) hkl
  exact ⟨by linarith [h.1], by linarith [h.2]⟩

theorem fits_value (hs : s ≠ []) : Fits s.length (value s) := by
  obtain ⟨b, s, rfl⟩ := List.exists_cons_of_ne_nil hs
  obtain ⟨hlo, hhi⟩ := leading_bounds b
  have hv : (BigEndian.value s : Int) < 256 ^ s.length := by exact_mod_cast BigEndian.value_lt s
  have hlo : -128 * 256 ^ s.length ≤ leading b * 256 ^ s.length :=
    mul_le_mul_of_nonneg_right hlo (by positivity)
  have hhi : leading b * 256 ^ s.length ≤ 127 * 256 ^ s.length :=
    mul_le_mul_of_nonneg_right hhi (by positivity)
  rw [value_cons]
  constructor <;> rw [List.length_cons, pow_succ] <;> linarith

theorem not_fits_of_isMinimal (h : isMinimal (a :: b :: s) = true) :
    ¬ Fits (b :: s).length (value (a :: b :: s)) := by
  have hv : (BigEndian.value s : Int) < 256 ^ s.length := by exact_mod_cast BigEndian.value_lt s
  have hpow : (0 : Int) < 256 ^ s.length := by positivity
  have ha := a.toNat_lt
  have hb := b.toNat_lt
  have hmin : ¬ (a.toNat = 0 ∧ b.toNat < 128) ∧ ¬ (a.toNat = 255 ∧ 128 ≤ b.toNat) := by
    simpa [isMinimal, redundant, UInt8.lt_iff_toNat_lt, UInt8.le_iff_toNat_le,
      ← UInt8.toNat_inj, imp_iff_not_or] using h
  have hout : 256 * leading a + b.toNat ≤ -129 ∨ 128 ≤ 256 * leading a + b.toNat := by
    rw [leading]
    split <;> omega
  have hvalue : value (a :: b :: s) =
      (256 * leading a + b.toNat) * 256 ^ s.length + BigEndian.value s := by
    rw [value_cons, BigEndian.value_cons, List.length_cons, pow_succ]
    push_cast
    ring
  rintro ⟨hlo, hhi⟩
  rw [hvalue, List.length_cons, pow_succ] at hlo hhi
  rcases hout with h | h
  · have := mul_le_mul_of_nonneg_right h hpow.le
    linarith
  · have := mul_le_mul_of_nonneg_right h hpow.le
    linarith

theorem length_le_iff {k : Nat} (h : isMinimal s = true) (hk : 0 < k) :
    s.length ≤ k ↔ Fits k (value s) := by
  constructor
  · intro hl
    refine (fits_value ?_).mono hl
    rintro rfl
    cases h
  · intro hf
    by_contra hl
    rcases s with _ | ⟨a, _ | ⟨b, s⟩⟩
    · cases h
    · exact hl hk
    · rw [List.length_cons] at hl
      exact not_fits_of_isMinimal h (hf.mono (by omega))

theorem eq_of_value_eq (hs : isMinimal s = true) (ht : isMinimal t = true)
    (h : value s = value t) : s = t := by
  have hne {u : Octets} (hu : isMinimal u = true) : u ≠ [] := by
    rintro rfl
    cases hu
  have hlen : s.length = t.length := by
    apply Nat.le_antisymm
    · exact (length_le_iff hs (List.length_pos_of_ne_nil (hne ht))).2 (h ▸ fits_value (hne ht))
    · exact (length_le_iff ht (List.length_pos_of_ne_nil (hne hs))).2 (h ▸ fits_value (hne hs))
  have hneg : isNegative s = isNegative t := by
    rw [Bool.eq_iff_iff, isNegative_iff, isNegative_iff, h]
  rw [value_eq_sub, value_eq_sub t, hlen, hneg] at h
  exact BigEndian.eq_of_value_eq hlen (by exact_mod_cast sub_left_injective h)

/-! ## Redundant octets -/

theorem value_of_redundant (h : redundant a b = true) : value (a :: b :: s) = value (b :: s) := by
  have hb := b.toNat_lt
  have h : (a.toNat = 0 ∧ b.toNat < 128) ∨ (a.toNat = 255 ∧ 128 ≤ b.toNat) := by
    simpa [redundant, UInt8.lt_iff_toNat_lt, UInt8.le_iff_toNat_le, ← UInt8.toNat_inj] using h
  have hsign : 256 * leading a + b.toNat = leading b := by
    rw [leading, leading]
    split <;> split <;> omega
  rw [value_cons, value_cons b, ← hsign, BigEndian.value_cons, List.length_cons, pow_succ]
  push_cast
  ring

theorem value_trim (s : Octets) : value (trim s) = value s := by
  fun_induction trim s with
  | case1 a b s h ih => rw [ih, value_of_redundant h]
  | case2 => rfl
  | case3 => rfl

theorem trim_suffix (s : Octets) : trim s <:+ s := by
  fun_induction trim s with
  | case1 a b s _ ih => exact ih.trans (List.suffix_cons a _)
  | case2 => exact List.suffix_rfl
  | case3 => exact List.suffix_rfl

theorem trim_ne_nil (hs : s ≠ []) : trim s ≠ [] := by
  intro h
  have := isMinimal_trim hs
  rw [h] at this
  cases this

/-- Minimal lists are those that no shorter list has the number of. -/
theorem isMinimal_iff (hs : s ≠ []) :
    isMinimal s = true ↔ ∀ t, t ≠ [] → value t = value s → s.length ≤ t.length := by
  constructor
  · intro h t ht hv
    exact (length_le_iff h (List.length_pos_of_ne_nil ht)).2 (hv ▸ fits_value ht)
  · intro h
    rw [← (trim_suffix s).eq_of_length_le (h _ (trim_ne_nil hs) (value_trim s))]
    exact isMinimal_trim hs

/-! ## Words -/

theorem isNegative_iff_le (hs : s ≠ []) :
    isNegative s = true ↔ 256 ^ s.length ≤ 2 * BigEndian.value s := by
  obtain ⟨b, s, rfl⟩ := List.exists_cons_of_ne_nil hs
  have hv := BigEndian.value_lt s
  rw [isNegative_cons, lt_high_iff, BigEndian.value_cons, List.length_cons, pow_succ]
  constructor
  · intro hb
    have := Nat.mul_le_mul_right (256 ^ s.length) (Nat.not_lt.1 hb)
    omega
  · intro h hb
    have := Nat.mul_le_mul_right (256 ^ s.length) (Nat.le_of_lt_succ hb)
    omega

theorem toInt_word (h : s.length = 8) : (BigEndian.word s).toInt64.toInt = value s := by
  have hne : s ≠ [] := by
    rintro rfl
    cases h
  have hword := BigEndian.toNat_word h.le
  have hneg := isNegative_iff_le hne
  rw [h] at hneg
  have hint : (BigEndian.word s).toInt64.toInt =
      if 2 * (BigEndian.word s).toNat < 2 ^ 64 then ((BigEndian.word s).toNat : Int)
      else (BigEndian.word s).toNat - (2 ^ 64 : Nat) :=
    BitVec.toInt_eq_toNat_cond _
  rw [hint, hword, value_eq_sub, h]
  simp only [hneg]
  split <;> split <;> omega

theorem value_signOctet_cons (hs : s ≠ []) : value (signOctet s :: s) = value s := by
  obtain ⟨b, s, rfl⟩ := List.exists_cons_of_ne_nil hs
  apply value_of_redundant
  rw [signOctet, isNegative]
  split <;> simp_all [redundant]

theorem signOctet_signOctet_cons (s : Octets) : signOctet (signOctet s :: s) = signOctet s := by
  rw [signOctet, signOctet]
  cases isNegative s <;> rfl

theorem value_replicate_signOctet_append (hs : s ≠ []) (k : Nat) :
    value (List.replicate k (signOctet s) ++ s) = value s := by
  induction k generalizing s with
  | zero => rfl
  | succ k ih =>
    have h := ih (List.cons_ne_nil (signOctet s) s)
    rw [signOctet_signOctet_cons] at h
    rw [List.replicate_succ', List.append_assoc, List.singleton_append, h,
      value_signOctet_cons hs]

theorem value_ofInt64 (v : Int64) : value (ofInt64 v) = v.toInt := by
  have hword : BigEndian.word (BigEndian.ofWord v.toUInt64) = v.toUInt64 := by
    rw [← UInt64.toNat_inj, BigEndian.toNat_word (by rfl), BigEndian.value_ofWord]
  have h := toInt_word (s := BigEndian.ofWord v.toUInt64) rfl
  rw [hword] at h
  rw [ofInt64, value_trim, ← h]
  rfl

theorem toInt64?_eq (hs : s ≠ []) :
    (toInt64? s).map Int64.toInt = if s.length ≤ 8 then some (value s) else none := by
  rw [toInt64?]
  split
  case isTrue h => rw [if_neg (Nat.not_le.2 h), Option.map_none]
  case isFalse h =>
    have hlen := Nat.not_lt.1 h
    rw [if_pos hlen, Option.map_some, toInt_word (BigEndian.length_filled hlen),
      BigEndian.filled, value_replicate_signOctet_append hs]

end TwosComplement

namespace Integer

open TwosComplement

variable {n m : Integer} {s t : Octets}

theorem eq_iff_toInt_eq : n = m ↔ n.toInt = m.toInt := by
  constructor
  · rintro rfl
    rfl
  · intro h
    have hs := eq_of_value_eq n.minimal m.minimal h
    cases n
    cases m
    congr

theorem octets_ne_nil (n : Integer) : n.octets ≠ [] := by
  intro h
  have := n.minimal
  rw [h] at this
  cases this

theorem toInt64?_eq (n : Integer) :
    n.toInt64? = if -2 ^ 63 ≤ n.toInt ∧ n.toInt < 2 ^ 63 then some n.toInt else none := by
  have hfits : n.octets.length ≤ 8 ↔ -2 ^ 63 ≤ n.toInt ∧ n.toInt < 2 ^ 63 := by
    rw [length_le_iff n.minimal (by decide), Fits, toInt]
    norm_num
    omega
  rw [toInt64?, TwosComplement.toInt64?_eq n.octets_ne_nil]
  simp only [hfits]
  rfl

/-! ## Magnitudes -/

/-- `s` is the shortest non-empty numeral of `v`. -/
def IsMagnitude (s : Octets) (v : Int) : Prop :=
  s ≠ [] ∧ (BigEndian.value s : Int) = v ∧
    ∀ t, t ≠ [] → (BigEndian.value t : Int) = v → s.length ≤ t.length

theorem IsMagnitude.unique {v : Int} (hs : IsMagnitude s v) (ht : IsMagnitude t v) : s = t := by
  obtain ⟨hs, hsv, hsmin⟩ := hs
  obtain ⟨ht, htv, htmin⟩ := ht
  apply BigEndian.eq_of_value_eq
  · exact Nat.le_antisymm (hsmin t ht htv) (htmin s hs hsv)
  · exact_mod_cast hsv.trans htv.symm

theorem isMagnitude_cons {b : UInt8} (h : s ≠ [] → b ≠ 0) :
    IsMagnitude (b :: s) (BigEndian.value (b :: s)) := by
  refine ⟨List.cons_ne_nil b s, rfl, fun t ht hv => ?_⟩
  by_cases hs : s = []
  · rw [hs]
    exact List.length_pos_of_ne_nil ht
  · exact BigEndian.length_le_of_value_eq (h hs) (by exact_mod_cast hv)

theorem toInt_of_nonneg (h : n.isNegative = false) : n.toInt = BigEndian.value n.octets := by
  rw [toInt, value_eq_sub, if_neg (by simpa [Integer.isNegative] using h), sub_zero]

/-- Only a zero octet that keeps the sign bit clear is left out. -/
theorem exists_magnitude (h : n.isNegative = false) :
    ∃ s, n.magnitude? = some s ∧ IsMagnitude s n.toInt := by
  have hmin := n.minimal
  rw [magnitude?, if_neg (by rw [h]; exact Bool.false_ne_true), toInt_of_nonneg h]
  split
  · rename_i b s hs
    rw [hs] at hmin ⊢
    refine ⟨b :: s, rfl, ?_⟩
    rw [BigEndian.value_cons_zero]
    apply isMagnitude_cons
    rintro - rfl
    cases hmin
  · rename_i hs
    obtain ⟨a, s, ha⟩ := List.exists_cons_of_ne_nil n.octets_ne_nil
    refine ⟨n.octets, rfl, ?_⟩
    rw [ha] at hs ⊢
    apply isMagnitude_cons
    rintro hne rfl
    obtain ⟨b, s, rfl⟩ := List.exists_cons_of_ne_nil hne
    exact hs b s rfl

theorem isNegative_iff_toInt_lt : n.isNegative = true ↔ n.toInt < 0 :=
  TwosComplement.isNegative_iff n.octets

theorem magnitude?_eq_none_iff : n.magnitude? = none ↔ n.toInt < 0 := by
  rw [← isNegative_iff_toInt_lt]
  cases h : n.isNegative with
  | true => simp [magnitude?, h]
  | false =>
    obtain ⟨s, hs, -⟩ := exists_magnitude h
    simp [hs]

theorem magnitude?_eq_some_iff : n.magnitude? = some s ↔ IsMagnitude s n.toInt := by
  cases h : n.isNegative with
  | true =>
    have hneg := isNegative_iff_toInt_lt.1 h
    rw [magnitude?_eq_none_iff.2 hneg]
    constructor
    · intro h
      cases h
    · rintro ⟨-, hv, -⟩
      omega
  | false =>
    obtain ⟨t, ht, hmag⟩ := exists_magnitude h
    rw [ht]
    constructor
    · rintro ⟨⟩
      exact hmag
    · intro hs
      rw [hmag.unique hs]

theorem toNat64?_eq (n : Integer) :
    n.toNat64? = if 0 ≤ n.toInt ∧ n.toInt < 2 ^ 64 then some n.toInt.toNat else none := by
  rw [toNat64?]
  cases h : n.magnitude? with
  | none =>
    have hneg := magnitude?_eq_none_iff.1 h
    rw [if_neg (by omega)]
    rfl
  | some s =>
    obtain ⟨-, hv, hmin⟩ := magnitude?_eq_some_iff.1 h
    rw [Option.bind_eq_bind, Option.bind_some, ← hv, Int.toNat_natCast]
    split
    case isTrue hlen =>
      rw [if_neg]
      rintro ⟨-, hlt⟩
      have hlt : BigEndian.value s < 256 ^ 8 := by exact_mod_cast hlt
      have hfixed : BigEndian.value (BigEndian.fixed 8 (BigEndian.value s)) =
          BigEndian.value s := by
        rw [BigEndian.value_fixed, Nat.mod_eq_of_lt hlt]
      have hl := hmin (BigEndian.fixed 8 (BigEndian.value s)) (List.cons_ne_nil _ _)
        (by rw [hfixed, hv])
      rw [BigEndian.length_fixed] at hl
      exact absurd hl (Nat.not_le.2 hlen)
    case isFalse hlen =>
      have hle := Nat.not_lt.1 hlen
      have hlt : BigEndian.value s < 256 ^ 8 :=
        Nat.lt_of_lt_of_le (BigEndian.value_lt s) (Nat.pow_le_pow_right (by decide) hle)
      rw [if_pos ⟨by omega, by exact_mod_cast hlt⟩,
        BigEndian.toNat_word (BigEndian.length_filled hle).le, BigEndian.filled,
        BigEndian.value_replicate_zero_append]

/-! ## What an integer stands for -/

/-- `v` is the number of `n`, to all that looks at `n`. The octets are accepted as they are, no
other integer has the number, and the views are `v` where it is in their range. -/
structure Represents (n : Integer) (v : Int) : Prop where
  toInt_eq : n.toInt = v
  ofContents_octets : ∀ typeName, ofContents typeName n.octets = .ok n
  eq_iff : ∀ m : Integer, m = n ↔ m.toInt = v
  integer_beq_iff : ∀ m : Integer, Value.integer m == .integer n ↔ m.toInt = v
  enumerated_beq_iff : ∀ m : Integer, Value.enumerated m == .enumerated n ↔ m.toInt = v
  toInt64?_eq : n.toInt64? = if -2 ^ 63 ≤ v ∧ v < 2 ^ 63 then some v else none
  enumerated_toInt64?_eq :
    Enumerated.toInt64? n = if -2 ^ 63 ≤ v ∧ v < 2 ^ 63 then some v else none
  toNat64?_eq : n.toNat64? = if 0 ≤ v ∧ v < 2 ^ 64 then some v.toNat else none
  isNegative_iff : n.isNegative = true ↔ v < 0
  magnitude?_eq_none_iff : n.magnitude? = none ↔ v < 0
  magnitude?_eq_some_iff : ∀ s, n.magnitude? = some s ↔ IsMagnitude s v

theorem represents_toInt (n : Integer) : n.Represents n.toInt where
  toInt_eq := rfl
  ofContents_octets typeName := ofContents_octets typeName n
  eq_iff _ := eq_iff_toInt_eq
  integer_beq_iff m := (beq_iff_eq (a := m)).trans eq_iff_toInt_eq
  enumerated_beq_iff m := (beq_iff_eq (a := m)).trans eq_iff_toInt_eq
  toInt64?_eq := n.toInt64?_eq
  enumerated_toInt64?_eq := n.toInt64?_eq
  toNat64?_eq := n.toNat64?_eq
  isNegative_iff := isNegative_iff_toInt_lt
  magnitude?_eq_none_iff := magnitude?_eq_none_iff
  magnitude?_eq_some_iff _ := magnitude?_eq_some_iff

theorem represents_of_octets_eq {s : Octets} (h : n.octets = trim s) : n.Represents (value s) := by
  have hv : n.toInt = value s := by rw [toInt, h, value_trim]
  exact hv ▸ n.represents_toInt

theorem represents_ofInt64 (v : Int64) : (ofInt64 v).Represents v.toInt := by
  have h := (ofInt64 v).represents_toInt
  rwa [toInt, ofInt64, value_ofInt64] at h

theorem represents_ofMagnitude (s : Octets) : (ofMagnitude s).Represents (BigEndian.value s) := by
  have h : (ofMagnitude s).Represents (value (0x00 :: s)) := represents_of_octets_eq rfl
  rwa [value_cons, show leading 0x00 = 0 from rfl, zero_mul, zero_add] at h

theorem represents_ofUInt64 (w : UInt64) : (ofUInt64 w).Represents w.toNat := by
  have h := represents_ofMagnitude (BigEndian.ofWord w)
  rwa [BigEndian.value_ofWord] at h

theorem exists_ofContents_iff {typeName : String} :
    (∃ n, ofContents typeName s = .ok n) ↔ isMinimal s = true := by
  constructor
  · rintro ⟨n, hn⟩
    rw [octets_of_ofContents hn]
    exact n.minimal
  · intro h
    exact ⟨⟨s, h⟩, dif_pos h⟩

/-- An integer is its number. The number of octets is their big-endian number, less `256 ^ length`
if the sign bit is set, and octets are accepted as contents if none fewer have their number. What
is built from octets of either kind or from a word stands for just that, and so does what is read.
-/
theorem stands_for_number :
    (∀ b s, value (b :: s) =
      BigEndian.value (b :: s) - if b < 0x80 then 0 else 256 ^ (b :: s).length) ∧
    (∀ s : Octets, s ≠ [] → ∃ n, ofSigned s = .ok n ∧ n.Represents (value s)) ∧
    (∀ s : Octets, s ≠ [] → ∀ typeName, (∃ n, ofContents typeName s = .ok n) ↔
      ∀ t, t ≠ [] → value t = value s → s.length ≤ t.length) ∧
    (∀ s typeName n, ofContents typeName s = .ok n → n.octets = s ∧ n.Represents (value s)) ∧
    (∀ s : Octets, (ofMagnitude s).Represents (BigEndian.value s)) ∧
    (∀ k : Nat, (ofMagnitude (BigEndian.octets k)).Represents k) ∧
    (∀ v : Int64, (ofInt64 v).Represents v.toInt ∧
      (Enumerated.ofInt64 v).Represents v.toInt) ∧
    (∀ w : UInt64, (ofUInt64 w).Represents w.toNat) ∧
    (∀ v : Int, -2 ^ 63 ≤ v → v < 2 ^ 63 → (ofInt v).Represents v) ∧
    ∀ n : Integer, n.Represents n.toInt := by
  refine ⟨?_, ?_, ?_, ?_, represents_ofMagnitude, ?_, ?_, represents_ofUInt64, ?_,
    represents_toInt⟩
  · intro b s
    simp only [value_eq_sub, isNegative_cons, ite_not]
  · intro s hs
    exact ⟨⟨trim s, isMinimal_trim hs⟩, dif_neg hs, represents_of_octets_eq rfl⟩
  · intro s hs typeName
    exact exists_ofContents_iff.trans (isMinimal_iff hs)
  · intro s typeName n h
    rw [octets_of_ofContents h]
    exact ⟨rfl, n.represents_toInt⟩
  · intro k
    have h := represents_ofMagnitude (BigEndian.octets k)
    rwa [BigEndian.value_octets] at h
  · intro v
    exact ⟨represents_ofInt64 v, represents_ofInt64 v⟩
  · intro v hlo hhi
    have h := represents_ofInt64 (.ofInt v)
    rwa [Int64.toInt_ofInt_of_le hlo hhi] at h

theorem stands_for_number_padded :
    ∃ n, ofSigned [0xFF, 0xFF, 0x7F] = .ok n ∧ n.Represents (-129) ∧
      ¬ ∃ m, ofContents "INTEGER" [0xFF, 0xFF, 0x7F] = .ok m := by
  obtain ⟨-, hsigned, hcontents, -⟩ := stands_for_number
  obtain ⟨n, hn, hrep⟩ := hsigned [0xFF, 0xFF, 0x7F] (by decide)
  refine ⟨n, hn, hrep, fun h => ?_⟩
  exact absurd ((hcontents _ (by decide) _).1 h [0xFF, 0x7F] (by decide) (by decide)) (by decide)

end Integer

end Tlv
