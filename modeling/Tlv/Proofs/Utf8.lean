import Mathlib.Data.UInt
import Tlv.Text.Utf8
import Tlv.Proofs.Contents

/-! # Well-formed UTF-8

The grammar of the octets of a character is that of the Unicode table of well-formed sequences:
continuation octets are bounded so that there is no overlong form, no surrogate and nothing above
U+10FFFF. Sequences of the grammar are what characters are encoded as, and reading one gives the
character back. So the decoder takes well-formed octets and nothing else, and undoes the encoder.
-/

namespace Tlv.Utf8

/-! ## The grammar -/

def Tail (b : UInt8) : Prop := 0x80 ≤ b ∧ b ≤ 0xBF

inductive Sequence : Octets → Prop where
  | one {a : UInt8} (ha : a ≤ 0x7F) : Sequence [a]
  | two {a b : UInt8} (ha : 0xC2 ≤ a ∧ a ≤ 0xDF) (hb : Tail b) : Sequence [a, b]
  | three {a b c : UInt8} (ha : 0xE0 ≤ a ∧ a ≤ 0xEF) (hb : Tail b) (hc : Tail c)
      (hlong : a = 0xE0 → 0xA0 ≤ b) (hsurrogate : a = 0xED → b ≤ 0x9F) : Sequence [a, b, c]
  | four {a b c d : UInt8} (ha : 0xF0 ≤ a ∧ a ≤ 0xF4) (hb : Tail b) (hc : Tail c) (hd : Tail d)
      (hlong : a = 0xF0 → 0x90 ≤ b) (hlarge : a = 0xF4 → b ≤ 0x8F) : Sequence [a, b, c, d]

inductive WellFormed : Octets → Prop where
  | nil : WellFormed []
  | cons {s t : Octets} (hs : Sequence s) (ht : WellFormed t) : WellFormed (s ++ t)

variable {a b c d : UInt8} {s t : Octets} {x y : Char} {cs : List Char}

/-! ## Octets of a character -/

theorem utf8EncodeChar_injective : Function.Injective String.utf8EncodeChar := by
  intro x y h
  have hx := ByteArray.utf8DecodeChar?_utf8EncodeChar_append (b := .empty) (c := x)
  rw [h, ByteArray.utf8DecodeChar?_utf8EncodeChar_append] at hx
  exact (Option.some.inj hx).symm

theorem sequence_utf8EncodeChar (x : Char) : Sequence (String.utf8EncodeChar x) := by
  have hvalid : x.val.toNat.isValidChar := x.valid
  rw [Nat.isValidChar] at hvalid
  unfold String.utf8EncodeChar
  generalize x.val.toNat = n at hvalid
  dsimp only
  split
  · apply Sequence.one
    simp [UInt8.le_iff_toNat_le]
    omega
  split
  · apply Sequence.two <;> simp [Tail, UInt8.le_iff_toNat_le] <;> omega
  split
  · apply Sequence.three <;> simp [Tail, UInt8.le_iff_toNat_le, ← UInt8.toNat_inj] <;> omega
  · apply Sequence.four <;> simp [Tail, UInt8.le_iff_toNat_le, ← UInt8.toNat_inj] <;> omega

theorem toNat_val_ofNat {n : Nat} (h : n.isValidChar) : (Char.ofNat n).val.toNat = n := by
  rw [Char.ofNat, dif_pos h]
  rfl

/-! ## Reading a character -/

theorem utf8EncodeChar_one (ha : a ≤ 0x7F) :
    String.utf8EncodeChar (assemble a.toNat []) = [a] := by
  simp only [UInt8.le_iff_toNat_le, UInt8.reduceToNat] at ha
  rw [assemble, List.foldl_nil, String.utf8EncodeChar, toNat_val_ofNat (by grind)]
  simp [ha]

theorem utf8EncodeChar_two (ha : 0xC2 ≤ a ∧ a ≤ 0xDF) (hb : Tail b) :
    String.utf8EncodeChar (assemble (a.toNat % 32) [b]) = [a, b] := by
  simp only [Tail, UInt8.le_iff_toNat_le, UInt8.reduceToNat] at ha hb
  change String.utf8EncodeChar (Char.ofNat (a.toNat % 32 * 64 + b.toNat % 64)) = _
  rw [String.utf8EncodeChar, toNat_val_ofNat (by omega)]
  rw [if_neg (by omega), if_pos (by omega)]
  simp [← UInt8.toNat_inj]
  omega

theorem utf8EncodeChar_three (ha : 0xE0 ≤ a ∧ a ≤ 0xEF) (hb : Tail b) (hc : Tail c)
    (hlong : a = 0xE0 → 0xA0 ≤ b) (hsurrogate : a = 0xED → b ≤ 0x9F) :
    String.utf8EncodeChar (assemble (a.toNat % 16) [b, c]) = [a, b, c] := by
  simp only [Tail, UInt8.le_iff_toNat_le, ← UInt8.toNat_inj, UInt8.reduceToNat] at *
  change String.utf8EncodeChar
    (Char.ofNat ((a.toNat % 16 * 64 + b.toNat % 64) * 64 + c.toNat % 64)) = _
  rw [String.utf8EncodeChar, toNat_val_ofNat (by omega)]
  rw [if_neg (by omega), if_neg (by omega), if_pos (by omega)]
  simp [← UInt8.toNat_inj]
  omega

theorem utf8EncodeChar_four (ha : 0xF0 ≤ a ∧ a ≤ 0xF4) (hb : Tail b) (hc : Tail c) (hd : Tail d)
    (hlong : a = 0xF0 → 0x90 ≤ b) (hlarge : a = 0xF4 → b ≤ 0x8F) :
    String.utf8EncodeChar (assemble (a.toNat % 8) [b, c, d]) = [a, b, c, d] := by
  simp only [Tail, UInt8.le_iff_toNat_le, ← UInt8.toNat_inj, UInt8.reduceToNat] at *
  change String.utf8EncodeChar (Char.ofNat
    (((a.toNat % 8 * 64 + b.toNat % 64) * 64 + c.toNat % 64) * 64 + d.toNat % 64)) = _
  rw [String.utf8EncodeChar, toNat_val_ofNat (by omega)]
  rw [if_neg (by omega), if_neg (by omega), if_neg (by omega)]
  simp [← UInt8.toNat_inj]
  omega

theorem exists_readChar (h : Sequence s) (t : Octets) :
    ∃ x ht, readChar (s ++ t) = .ok (x, ⟨t, ht⟩) ∧ String.utf8EncodeChar x = s := by
  cases h with
  | @one a ha =>
    have hread : a < 0x80 := by grind
    refine ⟨_, Nat.lt_succ_self _, ?_, utf8EncodeChar_one ha⟩
    simp [readChar, hread]
  | @two a b ha hb =>
    have hread : ¬ a < 0x80 ∧ ¬ a < 0xC2 ∧ ¬ 0xF5 ≤ a ∧ a < 0xE0 := by grind
    have hfollow : mayFollow a b := by grind [mayFollow, Tail]
    have ht : t.length < ([a, b] ++ t).length :=
      Octets.length_lt_cons_of_lt a (Octets.length_lt_cons b t)
    refine ⟨_, ht, ?_, utf8EncodeChar_two ha hb⟩
    simp [readChar, hread, hfollow]
  | @three a b c ha hb hc hlong hsurrogate =>
    have hread : ¬ a < 0x80 ∧ ¬ a < 0xC2 ∧ ¬ 0xF5 ≤ a ∧ ¬ a < 0xE0 ∧ a < 0xF0 := by grind
    have hfollow : mayFollow a b := by grind [mayFollow, Tail]
    have hcont : isContinuation c := by grind [isContinuation, Tail]
    refine ⟨_, by simp; omega, ?_, utf8EncodeChar_three ha hb hc hlong hsurrogate⟩
    simp [readChar, hread, hfollow, hcont]
  | @four a b c d ha hb hc hd hlong hlarge =>
    have hread : ¬ a < 0x80 ∧ ¬ a < 0xC2 ∧ ¬ 0xF5 ≤ a ∧ ¬ a < 0xE0 ∧ ¬ a < 0xF0 := by grind
    have hfollow : mayFollow a b := by grind [mayFollow, Tail]
    have hcont : isContinuation c ∧ isContinuation d := by grind [isContinuation, Tail]
    refine ⟨_, by simp; omega, ?_, utf8EncodeChar_four ha hb hc hd hlong hlarge⟩
    simp [readChar, hread, hfollow, hcont]

theorem append_of_readChar {t : Rest s} (h : readChar s = .ok (x, t)) :
    s = String.utf8EncodeChar x ++ t.1 := by
  unfold readChar at h
  split at h
  · cases h
  rename_i a s
  split at h
  · cases h
    rw [utf8EncodeChar_one (by grind)]
    rfl
  split at h
  · cases h
  split at h
  · cases h
  rename_i b s
  split at h
  · cases h
  split at h
  · cases h
    rw [utf8EncodeChar_two (by grind) (by grind [mayFollow, Tail])]
    rfl
  split at h
  · cases h
  rename_i c s
  split at h
  · cases h
  have hb : Tail b := by grind [mayFollow, Tail]
  have hc : Tail c := by grind [isContinuation, Tail]
  split at h
  · cases h
    rw [utf8EncodeChar_three (by grind) hb hc (by grind [mayFollow]) (by grind [mayFollow])]
    rfl
  split at h
  · cases h
  rename_i d s
  split at h
  · cases h
  have hd : Tail d := by grind [isContinuation, Tail]
  cases h
  rw [utf8EncodeChar_four (by grind) hb hc hd (by grind [mayFollow]) (by grind [mayFollow])]
  rfl

theorem readChar_utf8EncodeChar_append (x : Char) (t : Octets) :
    ∃ ht, readChar (String.utf8EncodeChar x ++ t) = .ok (x, ⟨t, ht⟩) := by
  obtain ⟨y, ht, hy, hxy⟩ := exists_readChar (sequence_utf8EncodeChar x) t
  rw [utf8EncodeChar_injective hxy] at hy
  exact ⟨ht, hy⟩

theorem utf8EncodeChar_append_inj
    (h : String.utf8EncodeChar x ++ s = String.utf8EncodeChar y ++ t) : x = y ∧ s = t := by
  have hx := readChar_utf8EncodeChar_append x s
  rw [h] at hx
  obtain ⟨_, hx⟩ := hx
  obtain ⟨_, hy⟩ := readChar_utf8EncodeChar_append y t
  cases hx.symm.trans hy
  exact ⟨rfl, rfl⟩

/-! ## Decoding -/

theorem ne_encode_of_readChar {e : Fault} (hs : s ≠ []) (h : readChar s = .error e) :
    s ≠ encode cs := by
  rintro rfl
  cases cs with
  | nil => exact hs rfl
  | cons x cs =>
    obtain ⟨_, hx⟩ := readChar_utf8EncodeChar_append x (encode cs)
    cases hx.symm.trans h

theorem decodeFrom_eq_ok_iff {index : Nat} : decodeFrom index s = .ok cs ↔ s = encode cs := by
  induction index, s using decodeFrom.induct generalizing cs with
  | case1 index =>
    rw [decodeFrom, encode]
    cases cs with
    | nil => simp
    | cons x cs => simp [String.utf8EncodeChar_ne_nil]
  | case2 index a s length h =>
    rw [decodeFrom, h]
    exact iff_of_false (by rintro ⟨⟩) (ne_encode_of_readChar (by simp) h)
  | case3 index a s h =>
    rw [decodeFrom, h]
    exact iff_of_false (by rintro ⟨⟩) (ne_encode_of_readChar (by simp) h)
  | case4 index a s x t _ h ih =>
    rw [decodeFrom, h]
    dsimp only
    rw [except_map_eq_ok_iff, append_of_readChar h]
    simp only [ih]
    constructor
    · rintro ⟨cs, rfl, rfl⟩
      rfl
    · intro hcs
      cases cs with
      | nil => simp [encode, String.utf8EncodeChar_ne_nil] at hcs
      | cons y cs =>
        obtain ⟨rfl, rfl⟩ := utf8EncodeChar_append_inj hcs
        exact ⟨cs, rfl, rfl⟩

theorem decode_eq_ok_iff : decode s = .ok cs ↔ s = encode cs := decodeFrom_eq_ok_iff

theorem wellFormed_iff : WellFormed s ↔ ∃ cs, s = encode cs := by
  constructor
  · intro h
    induction h with
    | nil => exact ⟨[], rfl⟩
    | cons hs _ ih =>
      obtain ⟨x, _, _, rfl⟩ := exists_readChar hs []
      obtain ⟨cs, rfl⟩ := ih
      exact ⟨x :: cs, rfl⟩
  · rintro ⟨cs, rfl⟩
    induction cs with
    | nil => exact .nil
    | cons x cs ih => exact .cons (sequence_utf8EncodeChar x) ih

theorem exists_decode_iff : (∃ cs, decode s = .ok cs) ↔ WellFormed s := by
  simp only [decode_eq_ok_iff, wellFormed_iff]

end Tlv.Utf8
