import Mathlib.Algebra.BigOperators.Group.List.Basic
import Mathlib.Data.List.Induction
import Tlv.Text.Utf16
import Tlv.Text.Utf32
import Tlv.Proofs.Contents
import Tlv.Proofs.Numeral
import Tlv.Proofs.Utf8

/-! # Well-formed UTF-16 and UTF-32

Big-endian words of two or four octets spell characters: a unit that is no surrogate, a high
surrogate with a low one, or the number of a character. Both decoders undo their encoders, and take
the octets that are such words one after the other and nothing else.
-/

namespace Tlv

open BigEndian (fixed value)

variable {s : Octets} {x : Char} {cs : List Char}

theorem BigEndian.fixed_value {k : Nat} (h : s.length = k) : fixed k (value s) = s := by
  have hlt := value_lt s
  rw [h] at hlt
  apply eq_of_value_eq (by rw [length_fixed, h])
  rw [value_fixed, Nat.mod_eq_of_lt hlt]

namespace Utf16

/-- Units of two octets; the high octet shows what kind of unit it is. -/
inductive WellFormed : Octets → Prop where
  | nil : WellFormed []
  | unit {a b : UInt8} {s : Octets} (ha : a < 0xD8 ∨ 0xDF < a) (hs : WellFormed s) :
      WellFormed (a :: b :: s)
  | pair {a b c d : UInt8} {s : Octets} (ha : 0xD8 ≤ a ∧ a ≤ 0xDB) (hc : 0xDC ≤ c ∧ c ≤ 0xDF)
      (hs : WellFormed s) : WellFormed (a :: b :: c :: d :: s)

/-! ## Units -/

/-- The units of a character: one that is no surrogate, or a high one and a low one. -/
inductive Spells : List Nat → Char → Prop where
  | unit {u : Nat} (hu : u < 0x10000) (hs : isSurrogate u = false) : Spells [u] (Char.ofNat u)
  | pair {u v : Nat} (hu : isHigh u = true) (hv : isLow v = true) :
      Spells [u, v] (Char.ofNat (0x10000 + (u - 0xD800) * 0x400 + (v - 0xDC00)))

variable {us vs : List Nat}

theorem spells_unitsOf (x : Char) : Spells (unitsOf x) x := by
  have hx : x.toNat.isValidChar := x.valid
  rw [Nat.isValidChar] at hx
  rw [unitsOf]
  split
  case isTrue h =>
    have hspells := Spells.unit h (by simp [isSurrogate]; omega)
    rwa [Char.ofNat_toNat] at hspells
  case isFalse h =>
    have hspells := Spells.pair (u := 0xD800 + (x.toNat - 0x10000) / 0x400)
      (v := 0xDC00 + (x.toNat - 0x10000) % 0x400) (by simp [isHigh]; omega) (by simp [isLow]; omega)
    have hn : 0x10000 + (0xD800 + (x.toNat - 0x10000) / 0x400 - 0xD800) * 0x400 +
        (0xDC00 + (x.toNat - 0x10000) % 0x400 - 0xDC00) = x.toNat := by omega
    rwa [hn, Char.ofNat_toNat] at hspells

theorem Spells.eq_unitsOf (h : Spells us x) : us = unitsOf x := by
  cases h with
  | @unit u hu hs =>
    have hvalid : u.isValidChar := by
      simp [isSurrogate] at hs
      grind
    have hnumber : (Char.ofNat u).toNat = u := Utf8.toNat_val_ofNat hvalid
    rw [unitsOf, hnumber, if_pos hu]
  | @pair u v hu hv =>
    simp only [isHigh, isLow, Bool.and_eq_true, decide_eq_true_eq] at hu hv
    have hvalid : (0x10000 + (u - 0xD800) * 0x400 + (v - 0xDC00)).isValidChar := by grind
    have hnumber : (Char.ofNat (0x10000 + (u - 0xD800) * 0x400 + (v - 0xDC00))).toNat =
        0x10000 + (u - 0xD800) * 0x400 + (v - 0xDC00) := Utf8.toNat_val_ofNat hvalid
    rw [unitsOf, hnumber, if_neg (by omega)]
    simp
    omega

theorem ofUnits_append (h : Spells us x) : ofUnits (us ++ vs) = (ofUnits vs).map (x :: ·) := by
  cases h with
  | unit hu hs => cases vs <;> simp [ofUnits, hs]
  | @pair u v hu hv =>
    have hs : isSurrogate u = true := by
      simp [isHigh, isSurrogate] at hu ⊢
      omega
    simp [ofUnits, hs, hu, hv]

theorem ofUnits_flatMap (cs : List Char) : ofUnits (cs.flatMap unitsOf) = .ok cs := by
  induction cs with
  | nil => rfl
  | cons x cs ih =>
    rw [List.flatMap_cons, ofUnits_append (spells_unitsOf x), ih]
    rfl

theorem eq_flatMap_of_ofUnits (hus : ∀ u ∈ us, u < 0x10000) (h : ofUnits us = .ok cs) :
    us = cs.flatMap unitsOf := by
  fun_induction ofUnits us generalizing cs with
  | case1 =>
    cases h
    rfl
  | case2 u us hs ih =>
    obtain ⟨cs, hcs, rfl⟩ := except_map_eq_ok_iff.1 h
    rw [List.forall_mem_cons] at hus
    rw [List.flatMap_cons, ← ih hus.2 hcs, ← (Spells.unit hus.1 (by simpa using hs)).eq_unitsOf]
    rfl
  | case3 => cases h
  | case4 u hs v us hpair ih =>
    obtain ⟨cs, hcs, rfl⟩ := except_map_eq_ok_iff.1 h
    rw [Bool.and_eq_true] at hpair
    rw [List.forall_mem_cons, List.forall_mem_cons] at hus
    rw [List.flatMap_cons, ← ih hus.2.2 hcs, ← (Spells.pair hpair.1 hpair.2).eq_unitsOf]
    rfl
  | case5 => cases h

/-! ## Octets of units -/

theorem units_flatMap_fixed (h : ∀ u ∈ us, u < 0x10000) : units (us.flatMap (fixed 2)) = us := by
  induction us with
  | nil => rfl
  | cons u us ih =>
    rw [List.forall_mem_cons] at h
    change value (fixed 2 u) :: units (us.flatMap (fixed 2)) = u :: us
    rw [BigEndian.value_fixed, Nat.mod_eq_of_lt (by omega), ih h.2]

theorem flatMap_fixed_units (h : s.length % 2 = 0) : (units s).flatMap (fixed 2) = s := by
  induction s using List.twoStepInduction with
  | nil => rfl
  | singleton a => simp at h
  | cons_cons a b s ih =>
    have hs : s.length % 2 = 0 := by
      rw [List.length_cons, List.length_cons] at h
      omega
    rw [units, List.flatMap_cons, BigEndian.fixed_value (k := 2) rfl, ih hs]
    rfl

theorem value_lt (a b : UInt8) : value [a, b] < 0x10000 := by
  simpa using BigEndian.value_lt [a, b]

theorem units_lt (s : Octets) : ∀ u ∈ units s, u < 0x10000 := by
  induction s using List.twoStepInduction with
  | nil | singleton => exact List.forall_mem_nil _
  | cons_cons a b s ih =>
    rw [units]
    exact List.forall_mem_cons.2 ⟨value_lt a b, ih⟩

theorem Spells.lt (h : Spells us x) : ∀ u ∈ us, u < 0x10000 := by
  cases h with
  | unit hu hs => simpa using hu
  | pair hu hv =>
    simp [isHigh, isLow] at hu hv ⊢
    omega

theorem encode_eq (cs : List Char) : encode cs = (cs.flatMap unitsOf).flatMap (fixed 2) := by
  rw [encode, List.flatMap_assoc]

theorem encode_cons (h : Spells us x) (cs : List Char) :
    encode (x :: cs) = us.flatMap (fixed 2) ++ encode cs := by
  rw [encode, List.flatMap_cons, ← h.eq_unitsOf, encode]

theorem decode_eq_ok_iff : decode s = .ok cs ↔ s = encode cs := by
  rw [encode_eq]
  constructor
  · intro h
    rw [decode] at h
    split at h
    case isTrue heven =>
      rw [← eq_flatMap_of_ofUnits (units_lt s) h, flatMap_fixed_units heven]
    case isFalse => cases h
  · rintro rfl
    have hlt : ∀ u ∈ cs.flatMap unitsOf, u < 0x10000 := by
      intro u hu
      obtain ⟨x, _, hux⟩ := List.mem_flatMap.1 hu
      exact (spells_unitsOf x).lt u hux
    have hlen : ((cs.flatMap unitsOf).flatMap (fixed 2)).length % 2 = 0 := by
      simp [List.length_flatMap]
    rw [decode, if_pos hlen, units_flatMap_fixed hlt, ofUnits_flatMap]

/-! ## The grammar -/

theorem wellFormed_append (h : Spells us x) (hs : WellFormed s) :
    WellFormed (us.flatMap (fixed 2) ++ s) := by
  cases h with
  | @unit u hu hsurrogate =>
    apply WellFormed.unit _ hs
    simp [isSurrogate] at hsurrogate
    simp [UInt8.lt_iff_toNat_lt, Nat.shiftRight_eq_div_pow]
    omega
  | @pair u v hu hv =>
    simp [isHigh, isLow] at hu hv
    apply WellFormed.pair _ _ hs
    · simp [UInt8.le_iff_toNat_le, Nat.shiftRight_eq_div_pow]
      omega
    · simp [UInt8.le_iff_toNat_le, Nat.shiftRight_eq_div_pow]
      omega

theorem wellFormed_iff : WellFormed s ↔ ∃ cs, s = encode cs := by
  constructor
  · intro h
    induction h with
    | nil => exact ⟨[], rfl⟩
    | @unit a b s ha _ ih =>
      obtain ⟨cs, rfl⟩ := ih
      have hspells : Spells [value [a, b]] (Char.ofNat (value [a, b])) := by
        have := b.toNat_lt
        apply Spells.unit (value_lt a b)
        simp [isSurrogate, BigEndian.value_cons, UInt8.lt_iff_toNat_lt] at ha ⊢
        omega
      refine ⟨Char.ofNat (value [a, b]) :: cs, ?_⟩
      rw [encode_cons hspells, List.flatMap_singleton, BigEndian.fixed_value (k := 2) rfl]
      rfl
    | @pair a b c d s ha hc _ ih =>
      obtain ⟨cs, rfl⟩ := ih
      have hu : isHigh (value [a, b]) = true := by
        have := b.toNat_lt
        simp [isHigh, BigEndian.value_cons, UInt8.le_iff_toNat_le] at ha ⊢
        omega
      have hv : isLow (value [c, d]) = true := by
        have := d.toNat_lt
        simp [isLow, BigEndian.value_cons, UInt8.le_iff_toNat_le] at hc ⊢
        omega
      refine ⟨_ :: cs, Eq.trans ?_ (encode_cons (.pair hu hv) cs).symm⟩
      rw [List.flatMap_cons, List.flatMap_singleton, BigEndian.fixed_value (k := 2) rfl,
        BigEndian.fixed_value (k := 2) rfl]
      rfl
  · rintro ⟨cs, rfl⟩
    induction cs with
    | nil => exact .nil
    | cons x cs ih => exact wellFormed_append (spells_unitsOf x) ih

theorem exists_decode_iff : (∃ cs, decode s = .ok cs) ↔ WellFormed s := by
  simp only [decode_eq_ok_iff, wellFormed_iff]

end Utf16

namespace Utf32

/-- Four octets each, which spell the number of a character. -/
inductive WellFormed : Octets → Prop where
  | nil : WellFormed []
  | number {a b c d : UInt8} {s : Octets} (hn : (value [a, b, c, d]).isValidChar)
      (hs : WellFormed s) : WellFormed (a :: b :: c :: d :: s)

variable {ns : List Nat}

theorem ofNumber_eq_ok_iff {n : Nat} : ofNumber n = .ok x ↔ n = x.toNat := by
  rw [ofNumber]
  split
  case isTrue h =>
    constructor
    · rintro ⟨⟩
      exact (Utf8.toNat_val_ofNat h).symm
    · rintro rfl
      rw [Char.ofNat_toNat]
  case isFalse h =>
    refine iff_of_false (by rintro ⟨⟩) ?_
    rintro rfl
    exact h x.valid

theorem mapM_ofNumber_eq_ok_iff : ns.mapM ofNumber = .ok cs ↔ ns = cs.map Char.toNat := by
  induction ns generalizing cs with
  | nil => cases cs <;> simp [pure, Except.pure]
  | cons n ns ih =>
    simp only [List.mapM_cons, except_bind_eq_ok_iff, ofNumber_eq_ok_iff, ih]
    constructor
    · rintro ⟨x, rfl, cs, rfl, h⟩
      cases h
      rfl
    · intro h
      obtain ⟨x, cs, rfl, rfl, rfl⟩ := List.map_eq_cons_iff.1 h.symm
      exact ⟨x, rfl, cs, rfl, rfl⟩

theorem numbers_flatMap_fixed (h : ∀ n ∈ ns, n < 256 ^ 4) :
    numbers (ns.flatMap (fixed 4)) = ns := by
  induction ns with
  | nil => rfl
  | cons n ns ih =>
    rw [List.forall_mem_cons] at h
    change value (fixed 4 n) :: numbers (ns.flatMap (fixed 4)) = n :: ns
    rw [BigEndian.value_fixed, Nat.mod_eq_of_lt h.1, ih h.2]

theorem flatMap_fixed_numbers (h : s.length % 4 = 0) : (numbers s).flatMap (fixed 4) = s := by
  induction s using numbers.induct with
  | case1 a b c d s ih =>
    have hs : s.length % 4 = 0 := by
      simp only [List.length_cons] at h
      omega
    rw [numbers, List.flatMap_cons, BigEndian.fixed_value (k := 4) rfl, ih hs]
    rfl
  | case2 s hs =>
    rcases s with _ | ⟨a, _ | ⟨b, _ | ⟨c, _ | ⟨d, s⟩⟩⟩⟩
    · rfl
    · simp at h
    · simp at h
    · simp at h
    · exact absurd rfl (hs a b c d s)

theorem encode_eq (cs : List Char) : encode cs = (cs.map Char.toNat).flatMap (fixed 4) := by
  rw [encode, List.flatMap_map]

theorem encode_cons (x : Char) (cs : List Char) :
    encode (x :: cs) = fixed 4 x.toNat ++ encode cs := by
  rw [encode, List.flatMap_cons, encode]

theorem toNat_lt (x : Char) : x.toNat < 256 ^ 4 := by
  have h : x.toNat.isValidChar := x.valid
  rw [Nat.isValidChar] at h
  omega

theorem decode_eq_ok_iff : decode s = .ok cs ↔ s = encode cs := by
  rw [encode_eq]
  constructor
  · intro h
    rw [decode] at h
    split at h
    case isTrue hlen => rw [← mapM_ofNumber_eq_ok_iff.1 h, flatMap_fixed_numbers hlen]
    case isFalse => cases h
  · rintro rfl
    have hlt : ∀ n ∈ cs.map Char.toNat, n < 256 ^ 4 := List.forall_mem_map.2 fun x _ => toNat_lt x
    have hlen : ((cs.map Char.toNat).flatMap (fixed 4)).length % 4 = 0 := by
      simp [List.length_flatMap, Function.comp_def]
    rw [decode, if_pos hlen, numbers_flatMap_fixed hlt, mapM_ofNumber_eq_ok_iff]

theorem wellFormed_iff : WellFormed s ↔ ∃ cs, s = encode cs := by
  constructor
  · intro h
    induction h with
    | nil => exact ⟨[], rfl⟩
    | @number a b c d s hn _ ih =>
      obtain ⟨cs, rfl⟩ := ih
      refine ⟨Char.ofNat (value [a, b, c, d]) :: cs, ?_⟩
      have hnumber : (Char.ofNat (value [a, b, c, d])).toNat = value [a, b, c, d] :=
        Utf8.toNat_val_ofNat hn
      rw [encode_cons, hnumber, BigEndian.fixed_value (k := 4) rfl]
      rfl
  · rintro ⟨cs, rfl⟩
    induction cs with
    | nil => exact .nil
    | cons x cs ih =>
      apply WellFormed.number _ ih
      change (value (fixed 4 x.toNat)).isValidChar
      rw [BigEndian.value_fixed, Nat.mod_eq_of_lt (toNat_lt x)]
      exact x.valid

theorem exists_decode_iff : (∃ cs, decode s = .ok cs) ↔ WellFormed s := by
  simp only [decode_eq_ok_iff, wellFormed_iff]

end Utf32

end Tlv
