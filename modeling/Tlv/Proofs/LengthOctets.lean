import Tlv.Proofs.HeaderGrammar
import Tlv.Proofs.Width
import Tlv.Proofs.Words

/-! # Length octets

DER takes the shortest spelling of each length. The other rules take leading zeros as well, as many
as the first octet can announce, and BER a length that is left open. A word of 64 bits holds every
length that is not refused, and no digit overflows it.
-/

namespace Tlv

open Word

namespace Length

variable {rule : Rule} {k n : Nat} {digits p s t : Octets}

/-! ## Forms -/

def Spells (rule : Rule) (n : Nat) (p : Octets) : Prop :=
  n < UInt64.size ∧ ∃ form, form ≠ LengthForm.indefinite ∧ form.Admits rule n ∧ p = form.octets n

theorem reads_definite_iff :
    Reads (read rule s) (.definite n) t ↔ ∃ p, Spells rule n p ∧ s = p ++ t := by
  constructor
  · intro h
    obtain ⟨hn, form, hne, hadm, hs⟩ := LengthForm.exists_form_of_read h
    exact ⟨_, ⟨hn, form, hne, hadm, rfl⟩, hs⟩
  · rintro ⟨p, ⟨hn, form, hne, hadm, rfl⟩, rfl⟩
    rw [← LengthForm.length_of_ne hne]
    exact LengthForm.reads_octets hadm (fun _ => hn) t

theorem reads_indefinite_iff :
    Reads (read rule s) .indefinite t ↔
      ∃ p, (rule = .ber ∧ p = [indefiniteOctet]) ∧ s = p ++ t := by
  constructor
  · intro h
    obtain ⟨hr, rfl⟩ := LengthForm.indefinite_of_read h
    exact ⟨_, ⟨Rule.indefiniteLengths_eq_true_iff.1 hr, rfl⟩, rfl⟩
  · rintro ⟨p, ⟨rfl, rfl⟩, rfl⟩
    have hadm : LengthForm.indefinite.Admits .ber 0 := rfl
    exact LengthForm.reads_octets hadm (fun hne => absurd rfl hne) t

theorem spells_der_iff : Spells .der n p ↔ n < UInt64.size ∧ p = octets n := by
  constructor
  · rintro ⟨hn, form, -, hadm, rfl⟩
    exact ⟨hn, LengthForm.octets_of_admits_der hadm⟩
  · rintro ⟨hn, rfl⟩
    exact ⟨hn, _, LengthForm.shortest_ne_indefinite n, LengthForm.admits_shortest .der hn,
      (LengthForm.octets_shortest n).symm⟩

theorem spells_lax_iff (hr : rule ≠ .der) :
    Spells rule n p ↔ n < 128 ∧ p = [UInt8.ofNat n] ∨
      ∃ digits, (1 ≤ digits.length ∧ digits.length ≤ 126) ∧
        (BigEndian.value digits = n ∧ n < UInt64.size) ∧
        p = UInt8.ofNat (128 + digits.length) :: digits := by
  have hmin : rule.minimalForms ≠ true := by
    rw [ne_eq, Bool.not_eq_true]
    exact Rule.minimalForms_eq_false_iff.2 hr
  constructor
  · rintro ⟨hn, form, hne, hadm, rfl⟩
    cases form with
    | short => exact .inl ⟨hadm, rfl⟩
    | long k =>
      obtain ⟨h1, h126, hlt, -⟩ := hadm
      refine .inr ⟨BigEndian.fixed k n, ?_, ?_, ?_⟩
      · rw [BigEndian.length_fixed]
        exact ⟨h1, h126⟩
      · rw [BigEndian.value_fixed, Nat.mod_eq_of_lt hlt]
        exact ⟨rfl, hn⟩
      · rw [BigEndian.length_fixed]
        rfl
    | indefinite => exact absurd rfl hne
  · rintro (⟨hn, rfl⟩ | ⟨digits, ⟨h1, h126⟩, ⟨rfl, hn⟩, rfl⟩)
    · exact ⟨Nat.lt_trans hn (by decide), .short, by simp, hn, rfl⟩
    · have hlt := BigEndian.value_lt digits
      refine ⟨hn, .long digits.length, by simp, ⟨h1, h126, hlt, fun h => absurd h hmin⟩, ?_⟩
      rw [LengthForm.octets, BigEndian.eq_of_value_eq (BigEndian.length_fixed _ _)]
      rw [BigEndian.value_fixed, Nat.mod_eq_of_lt hlt]

theorem consumes_definite_iff :
    Consumes (read rule s) (.definite n) k ↔
      ∃ p, Spells rule n p ∧ p <+: s ∧ k = p.length :=
  consumes_iff fun _ => reads_definite_iff

theorem consumes_indefinite_iff :
    Consumes (read rule s) .indefinite k ↔
      rule = .ber ∧ s.head? = some indefiniteOctet ∧ k = 1 := by
  have hhead : s.head? = some indefiniteOctet ↔ [indefiniteOctet] <+: s := by
    cases s <;> simp [eq_comm]
  rw [consumes_iff fun _ => reads_indefinite_iff, hhead]
  constructor
  · rintro ⟨p, ⟨hr, rfl⟩, hp, hk⟩
    exact ⟨hr, hp, hk⟩
  · rintro ⟨hr, hp, hk⟩
    exact ⟨_, ⟨hr, rfl⟩, hp, hk⟩

theorem consumes_der_iff {l : Length} :
    Consumes (read .der s) l k ↔
      ∃ n < UInt64.size, l = .definite n ∧ octets n <+: s ∧ k = (octets n).length := by
  cases l with
  | indefinite => simp [consumes_indefinite_iff]
  | definite n =>
    simp only [consumes_definite_iff, spells_der_iff, definite.injEq]
    constructor
    · rintro ⟨p, ⟨hn, rfl⟩, h⟩
      exact ⟨n, hn, rfl, h⟩
    · rintro ⟨m, hn, rfl, h⟩
      exact ⟨_, ⟨hn, rfl⟩, h⟩

theorem consumes_lax_iff (hr : rule ≠ .der) :
    Consumes (read rule s) (.definite n) k ↔
      n < 128 ∧ [UInt8.ofNat n] <+: s ∧ k = 1 ∨
      ∃ digits, (1 ≤ digits.length ∧ digits.length ≤ 126) ∧
        (BigEndian.value digits = n ∧ n < UInt64.size) ∧
        UInt8.ofNat (128 + digits.length) :: digits <+: s ∧ k = 1 + digits.length := by
  simp only [consumes_definite_iff, spells_lax_iff hr]
  constructor
  · rintro ⟨p, ⟨hn, rfl⟩ | ⟨digits, hlen, hv, rfl⟩, hp, rfl⟩
    · exact .inl ⟨hn, hp, rfl⟩
    · exact .inr ⟨digits, hlen, hv, hp, Nat.add_comm _ _⟩
  · rintro (⟨hn, hp, rfl⟩ | ⟨digits, hlen, hv, hp, rfl⟩)
    · exact ⟨_, .inl ⟨hn, rfl⟩, hp, rfl⟩
    · exact ⟨_, .inr ⟨digits, hlen, hv, rfl⟩, hp, Nat.add_comm _ _⟩

theorem exists_consumes {l : Length} {u : Rest s} (h : read rule s = .ok (l, u)) :
    ∃ k, Consumes (read rule s) l k := by
  cases l with
  | definite n => exact Tlv.exists_consumes (fun _ => reads_definite_iff) h
  | indefinite => exact Tlv.exists_consumes (fun _ => reads_indefinite_iff) h

/-! ## Lengths in words -/

/-- The octet below the word, which is moved up to make room for it. -/
def pushOctet? (acc : BitVec 64) (b : UInt8) : Option (BitVec 64) := do
  return (← shiftLeft? acc 8) ||| b.toBitVec.setWidth 64

/-- The number that the digits of a long form spell, put together in a word. Only digits that are
not leading zeros are limited in number. -/
def ofDigitsWord? (rule : Rule) (digits : Octets) :
    Option (Except Malformation (BitVec 64)) :=
  let significant := (BigEndian.significant digits).length
  if 8 < significant then some (.error (.lengthTooLarge significant))
  else do
    let n ← digits.foldlM pushOctet? 0
    if rule.minimalForms && (digits.head? == some 0 || n < 128) then
      return .error (.nonMinimalLength n.toNat rule)
    else return .ok n

theorem exists_pushOctet? {acc : BitVec 64} (h : acc.toNat * 256 < 2 ^ 64) (b : UInt8) :
    ∃ m, pushOctet? acc b = some m ∧ m.toNat = acc.toNat * 256 + b.toNat := by
  have hb : (b.toBitVec.setWidth 64).toNat = b.toNat := by simp
  obtain ⟨m, hm, hor⟩ := exists_shiftLeft?_or (by decide) h (hb ▸ b.toNat_lt)
  refine ⟨m ||| b.toBitVec.setWidth 64, by simp [pushOctet?, hm], ?_⟩
  rw [hor, hb]
  rfl

/-- Digits are put together as long as the number of all of them fits the word. -/
theorem exists_foldlM_pushOctet? {acc : BitVec 64}
    (h : acc.toNat * 256 ^ s.length + BigEndian.value s < 2 ^ 64) :
    ∃ m, s.foldlM pushOctet? acc = some m ∧
      m.toNat = acc.toNat * 256 ^ s.length + BigEndian.value s := by
  induction s generalizing acc with
  | nil => exact ⟨acc, rfl, by simp⟩
  | cons b s ih =>
    have hsplit : acc.toNat * 256 ^ (b :: s).length + BigEndian.value (b :: s) =
        (acc.toNat * 256 + b.toNat) * 256 ^ s.length + BigEndian.value s := by
      rw [BigEndian.value_cons, List.length_cons, pow_succ]
      ring
    rw [hsplit] at h ⊢
    have hle : acc.toNat * 256 + b.toNat ≤ (acc.toNat * 256 + b.toNat) * 256 ^ s.length :=
      Nat.le_mul_of_pos_right _ (by positivity)
    have hfits : acc.toNat * 256 < 2 ^ 64 := by omega
    obtain ⟨m, hm, hmb⟩ := exists_pushOctet? hfits b
    rw [← hmb] at h ⊢
    obtain ⟨v, hv, heq⟩ := ih h
    exact ⟨v, by simp [List.foldlM_cons, hm, hv], heq⟩

theorem exists_ofDigitsWord? (rule : Rule) (digits : Octets) :
    ∃ r, ofDigitsWord? rule digits = some r ∧ r.map BitVec.toNat = ofDigits rule digits := by
  rw [ofDigitsWord?, ofDigits]
  split
  case isTrue => exact ⟨_, rfl, rfl⟩
  case isFalse hsig =>
    have hfits : (0 : BitVec 64).toNat * 256 ^ digits.length + BigEndian.value digits < 2 ^ 64 := by
      simpa using BigEndian.value_lt_of_length_significant_le (Nat.not_lt.1 hsig)
    obtain ⟨n, hn, heq⟩ := exists_foldlM_pushOctet? hfits
    have hvalue : n.toNat = BigEndian.value digits := by simpa using heq
    have hlow : (n < 128) = (n.toNat < 128) := rfl
    simp only [hn, Option.bind_eq_bind, Option.bind_some, hlow, hvalue]
    split <;> exact ⟨_, rfl, by simp [Except.map, hvalue]⟩

/-- Length octets are read exactly if they are spelled as the rule has it. DER takes the octets
that are written for a length of 64 bits and nothing else. The other rules take a length below 128
in one octet, and each length of 64 bits behind an octet that announces its digits, leading zeros
included. BER alone takes a length that is left open. No digit is lost from the word in which a
length is put together. -/
theorem length_grammar :
    (∀ rule s l u, read rule s = .ok (l, u) → ∃ k, Consumes (read rule s) l k) ∧
    (∀ s l k, Consumes (read .der s) l k ↔ ∃ n < UInt64.size, l = .definite n ∧
      octets n <+: s ∧ k = width n ∧ k = (octets n).length) ∧
    (∀ rule, rule ≠ .der → ∀ s n k, Consumes (read rule s) (.definite n) k ↔
      n < 128 ∧ [UInt8.ofNat n] <+: s ∧ k = 1 ∨
      ∃ digits, (1 ≤ digits.length ∧ digits.length ≤ 126) ∧
        (BigEndian.value digits = n ∧ n < UInt64.size) ∧
        UInt8.ofNat (128 + digits.length) :: digits <+: s ∧ k = 1 + digits.length) ∧
    (∀ rule s k, Consumes (read rule s) .indefinite k ↔
      rule = .ber ∧ s.head? = some indefiniteOctet ∧ k = 1) ∧
    ∀ rule digits, ∃ r, ofDigitsWord? rule digits = some r ∧
      r.map BitVec.toNat = ofDigits rule digits := by
  refine ⟨fun rule s l u => exists_consumes, fun s l k => ?_, fun rule hr s n k =>
    consumes_lax_iff hr, fun rule s k => consumes_indefinite_iff, exists_ofDigitsWord?⟩
  simp only [consumes_der_iff, length_octets, and_self]

theorem length_grammar_leading_zero :
    (∃ u, read .ber [0x80] = .ok (.indefinite, u)) ∧
      (∃ k, Consumes (read .ber [0x80]) .indefinite k) ∧
      Rule.dl ≠ .der ∧
      Consumes (read .dl [0x89, 0, 0xFF, 0xFF, 0xFF, 0xFF, 0xFF, 0xFF, 0xFF, 0xFF, 0x05])
        (.definite (UInt64.size - 1)) 10 := by
  obtain ⟨htaken, -, hlax, -, -⟩ := length_grammar
  have hread : read .ber [0x80] = .ok (.indefinite, ⟨[], by decide⟩) := by decide
  refine ⟨⟨_, hread⟩, htaken _ _ _ _ hread, by decide, (hlax .dl (by decide) _ _ _).2 (.inr ?_)⟩
  exact ⟨[0, 0xFF, 0xFF, 0xFF, 0xFF, 0xFF, 0xFF, 0xFF, 0xFF], by decide⟩

end Length

end Tlv
