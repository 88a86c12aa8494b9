import Tlv.Proofs.HeaderGrammar
import Tlv.Proofs.Width
import Tlv.Proofs.Words

/-! # Identifier octets

DER takes one spelling of each identifier, and the other rules take a small tag number in the high
form as well. A number that does not fit a word of 32 bits is refused, however many groups it has,
before a bit of it is lost.
-/

namespace Tlv

open Word

namespace Identifier

variable {rule : Rule} {i j : Identifier} {acc k n : Nat} {p s t : Octets}

/-! ## Forms -/

inductive Form (rule : Rule) (i : Identifier) : Octets → Prop where
  | shortest : Form rule i i.octets
  | high (hn : i.tag.number < 31) (hr : rule ≠ .der) : Form rule i i.highOctets

theorem Form.ber (h : Form rule i p) : Form .ber i p := by
  cases h with
  | shortest => exact .shortest
  | high hn _ => exact .high hn (by decide)

theorem Form.eq_octets (h : Form rule i p) (hr : rule = .der) : p = i.octets := by
  cases h with
  | shortest => rfl
  | high _ hn => exact absurd hr hn

theorem reads_iff : Reads (read rule s) i t ↔ ∃ p, Form rule i p ∧ s = p ++ t := by
  constructor
  · intro h
    obtain ⟨high, hadm, rfl⟩ := exists_form_of_read h
    by_cases hn : i.tag.number < 31
    · cases high with
      | false => exact ⟨_, .shortest, rfl⟩
      | true => exact ⟨_, .high hn (Rule.minimalForms_eq_false_iff.1 (hadm rfl hn)), rfl⟩
    · rw [← octets_eq_highOctets hn, ite_self]
      exact ⟨_, .shortest, rfl⟩
  · rintro ⟨p, hp, rfl⟩
    cases hp with
    | shortest => exact reads_octets rule i t
    | high hn hr => exact reads_highOctets (fun _ => Rule.minimalForms_eq_false_iff.2 hr) t

theorem highOctets_of_lt (h : i.tag.number < 31) :
    i.highOctets = [i.firstOctet 31, UInt8.ofNat i.tag.number.toNat] := by
  have hn : i.tag.number.toNat < 31 := by rwa [UInt32.lt_iff_toNat_lt] at h
  rw [highOctets, Base128.octets, Nat.div_eq_of_lt (by omega), Nat.mod_eq_of_lt (by omega),
    Base128.continued_zero, List.nil_append]

theorem consumes_iff_form :
    Consumes (read rule s) i k ↔ ∃ p, Form rule i p ∧ p <+: s ∧ k = p.length :=
  consumes_iff fun _ => reads_iff

theorem consumes_der_iff : Consumes (read .der s) i k ↔ i.octets <+: s ∧ k = i.octets.length := by
  rw [consumes_iff_form]
  constructor
  · rintro ⟨p, hp, h⟩
    rwa [hp.eq_octets rfl] at h
  · intro h
    exact ⟨_, .shortest, h⟩

theorem consumes_lax_iff (hr : rule ≠ .der) :
    Consumes (read rule s) i k ↔ i.octets <+: s ∧ k = i.octets.length ∨
      i.tag.number < 31 ∧ [i.firstOctet 31, UInt8.ofNat i.tag.number.toNat] <+: s ∧ k = 2 := by
  rw [consumes_iff_form]
  constructor
  · rintro ⟨p, hp, h⟩
    cases hp with
    | shortest => exact .inl h
    | high hn _ =>
      rw [highOctets_of_lt hn] at h
      exact .inr ⟨hn, h⟩
  · rintro (h | ⟨hn, h⟩)
    · exact ⟨_, .shortest, h⟩
    · rw [← highOctets_of_lt hn] at h
      refine ⟨_, .high hn hr, h.1, ?_⟩
      rw [h.2, highOctets_of_lt hn]
      rfl

/-! ## Numbers in groups -/

/-- No group is taken behind a number that has no room for one. -/
theorem outcome_readNumber_of_le (hn : UInt32.size / 128 ≤ n) (b : UInt8) (s : Octets) :
    outcome (readNumber 0 (Base128.continued n ++ b :: s)) = .error .tagNumberTooLarge := by
  induction n using Nat.strongRecOn generalizing b s with
  | _ n ih =>
    have hpos : 0 < n := Nat.lt_of_lt_of_le (by decide) hn
    rw [Base128.continued_of_pos hpos, List.append_assoc, List.singleton_append]
    rcases Nat.lt_or_ge (n / 128) (UInt32.size / 128) with hlt | hge
    · rw [outcome_readNumber_continued hlt, outcome_readNumber_cons, if_neg (Nat.not_le.2 hlt),
        bits_high, if_pos (Base128.continues_high n), outcome_readNumber_cons, if_pos hn]
    · exact ih _ (Nat.div_lt_self hpos (by decide)) hge _ _

theorem readNumber_octets_of_le (hn : UInt32.size ≤ n) (t : Octets) :
    readNumber 0 (Base128.octets n ++ t) = .error .tagNumberTooLarge := by
  have hdiv : UInt32.size / 128 ≤ n / 128 := Nat.div_le_div_right hn
  rw [← outcome_eq_error_iff, Base128.octets, List.append_assoc]
  exact outcome_readNumber_of_le hdiv _ t

theorem read_high_eq_error (hn : UInt32.size ≤ n) (rule : Rule) (i : Identifier) (t : Octets) :
    read rule (i.firstOctet 31 :: (Base128.octets n ++ t)) = .error .tagNumberTooLarge := by
  rw [read]
  simp only [low_firstOctet, Nat.reduceLT, Nat.lt_irrefl, if_false, readHighForm,
    if_neg (head?_octets_append n t), readNumber_octets_of_le hn]

/-- The high form is taken exactly if the rule has no shorter form for the number. -/
theorem consumes_highOctets_iff :
    Consumes (read rule (i.highOctets ++ t)) j k ↔
      (rule = .der → 31 ≤ i.tag.number) ∧ j = i ∧ k = i.highOctets.length := by
  constructor
  · intro h
    obtain ⟨p, hp, ⟨u, hu⟩, rfl⟩ := consumes_iff_form.1 h
    have hber : Reads (read .ber (p ++ u)) j u := reads_iff.2 ⟨p, hp.ber, rfl⟩
    obtain ⟨rfl, rfl⟩ := hber.unique (reads_highOctets (fun _ => rfl) t) hu
    obtain rfl : p = j.highOctets := List.append_cancel_right hu
    refine ⟨fun hr => ?_, rfl, rfl⟩
    by_contra hlt
    rw [UInt32.not_le] at hlt
    have hlen := congrArg List.length (hp.eq_octets hr)
    simp [highOctets_of_lt hlt, octets, hlt] at hlen
  · rintro ⟨hr, rfl, rfl⟩
    refine ⟨by simp, ?_⟩
    rw [List.drop_left]
    refine reads_highOctets (fun hlt => ?_) t
    rw [Rule.minimalForms_eq_false_iff]
    intro h
    exact absurd (hr h) (UInt32.not_le.2 hlt)

theorem consumes_high_iff :
    Consumes (read rule (i.firstOctet 31 :: (Base128.octets n ++ t))) j k ↔
      n < UInt32.size ∧ (rule = .der → 31 ≤ n) ∧
        j = ⟨⟨i.tag.cls, UInt32.ofNat n⟩, i.constructed⟩ ∧ k = 1 + Base128.width n := by
  rcases Nat.lt_or_ge n UInt32.size with hn | hn
  · have hnum : (UInt32.ofNat n).toNat = n := by
      rw [UInt32.toNat_ofNat', Nat.mod_eq_of_lt hn]
    have hhigh : highOctets ⟨⟨i.tag.cls, UInt32.ofNat n⟩, i.constructed⟩ =
        i.firstOctet 31 :: Base128.octets n := by
      rw [highOctets, hnum]
      rfl
    have hle : 31 ≤ UInt32.ofNat n ↔ 31 ≤ n := by
      rw [UInt32.le_iff_toNat_le, hnum]
      rfl
    rw [← List.cons_append, ← hhigh, consumes_highOctets_iff, hhigh, hle, List.length_cons,
      Base128.length_octets, Nat.add_comm 1]
    simp [hn]
  · rw [Consumes, read_high_eq_error hn]
    constructor
    · rintro ⟨-, _, h⟩
      cases h
    · rintro ⟨h, -⟩
      omega

/-! ## Numbers in words -/

/-- Reads groups into a word above the bits that it holds, as long as there is room. -/
def readNumberWord? (acc : BitVec 32) : Octets → Option (Except Malformation (BitVec 32 × Octets))
  | [] => some (.error .incompleteTagNumber)
  | b :: s =>
    if BitVec.allOnes 32 >>> 7 < acc then some (.error .tagNumberTooLarge)
    else do
      let number := (← shiftLeft? acc 7) ||| (b &&& 0x7F).toBitVec.setWidth 32
      if b &&& 0x80 = 0 then return .ok (number, s) else readNumberWord? number s

/-- No bit is lost from the word in which a number is put together. -/
theorem exists_readNumberWord? (acc : BitVec 32) (s : Octets) :
    ∃ r, readNumberWord? acc s = some r ∧
      r.map (Prod.map BitVec.toNat id) = outcome (readNumber acc.toNat s) := by
  induction s generalizing acc with
  | nil => exact ⟨_, rfl, rfl⟩
  | cons b s ih =>
    have hfull : BitVec.allOnes 32 >>> 7 < acc ↔ UInt32.size / 128 ≤ acc.toNat :=
      BitVec.lt_def
    rw [readNumberWord?, outcome_readNumber_cons]
    by_cases hacc : UInt32.size / 128 ≤ acc.toNat
    · rw [if_pos (hfull.2 hacc), if_pos hacc]
      exact ⟨_, rfl, rfl⟩
    · have hroom : acc.toNat * 128 < 2 ^ 32 := by
        rw [UInt32.size] at hacc
        omega
      obtain ⟨m, hm, hnumber⟩ := Base128.exists_pushed (by decide) hroom b
      rw [if_neg (fun h => hacc (hfull.1 h)), if_neg hacc, hm, Option.bind_eq_bind,
        Option.bind_some]
      dsimp only
      rw [← hnumber]
      cases hb : Base128.continues b with
      | true =>
        rw [if_neg (by simp [Base128.and_high_eq_zero_iff, hb]), if_pos rfl]
        exact ih _
      | false =>
        rw [if_pos (Base128.and_high_eq_zero_iff.2 hb), if_neg Bool.false_ne_true]
        exact ⟨_, rfl, rfl⟩

/-- Identifier octets are read exactly if they are spelled as the rule has it. DER takes the octets
that are written for the identifier and nothing else; the other rules take numbers below 31 behind
the first octet as well, in one octet. Of the numbers in groups of seven bits those are taken that
fit 32 bits, unless DER has a shorter form, and larger ones are refused as such. Nothing is lost
from the word in which a number is put together. -/
theorem identifier_grammar :
    (∀ rule s i u, read rule s = .ok (i, u) → ∃ k, Consumes (read rule s) i k) ∧
    (∀ s i k, Consumes (read .der s) i k ↔
      i.octets <+: s ∧ k = i.width ∧ k = i.octets.length) ∧
    (∀ rule, rule ≠ .der → ∀ s i k, Consumes (read rule s) i k ↔
      i.octets <+: s ∧ k = i.width ∧ k = i.octets.length ∨
        i.tag.number < 31 ∧ [i.firstOctet 31, UInt8.ofNat i.tag.number.toNat] <+: s ∧ k = 2) ∧
    (∀ rule (i j : Identifier) n t k,
      Consumes (read rule (i.firstOctet 31 :: (Base128.octets n ++ t))) j k ↔
        n < UInt32.size ∧ (rule = .der → 31 ≤ n) ∧
          j = ⟨⟨i.tag.cls, UInt32.ofNat n⟩, i.constructed⟩ ∧ k = 1 + Base128.width n) ∧
    (∀ rule (i : Identifier) n t, UInt32.size ≤ n →
      read rule (i.firstOctet 31 :: (Base128.octets n ++ t)) = .error .tagNumberTooLarge) ∧
    ∀ s, ∃ r, readNumberWord? 0 s = some r ∧
      r.map (Prod.map BitVec.toNat id) = outcome (readNumber 0 s) := by
  refine ⟨fun rule s i u => exists_consumes fun _ => reads_iff, fun s i k => ?_,
    fun rule hr s i k => ?_, fun rule i j n t k => consumes_high_iff,
    fun rule i n t hn => read_high_eq_error hn rule i t, exists_readNumberWord? 0⟩
  · simp only [consumes_der_iff, length_octets, and_self]
  · simp only [consumes_lax_iff hr, length_octets, and_self]

theorem identifier_grammar_thirty :
    (∃ u, read .der [0x02] = .ok (⟨.universal 2, false⟩, u)) ∧
      (∃ k, Consumes (read .der [0x02]) ⟨.universal 2, false⟩ k) ∧
      Rule.ber ≠ .der ∧ Consumes (read .ber [0xBF, 30, 0x02]) ⟨.context 30, true⟩ 2 ∧
      UInt32.size ≤ 2 ^ 32 ∧
      read .der [0x7F, 0x90, 0x80, 0x80, 0x80, 0x00] = .error .tagNumberTooLarge := by
  obtain ⟨htaken, -, hlax, -, hlarge, -⟩ := identifier_grammar
  have hread : read .der [0x02] = .ok (⟨.universal 2, false⟩, ⟨[], by decide⟩) := by decide
  have hn : Base128.octets (2 ^ 32) = [0x90, 0x80, 0x80, 0x80, 0x00] := by cbv
  have hrefused := hlarge .der ⟨⟨.application, 0⟩, true⟩ (2 ^ 32) [] (by decide)
  rw [hn] at hrefused
  exact ⟨⟨_, hread⟩, htaken _ _ _ _ hread, by decide,
    (hlax .ber (by decide) _ _ _).2 (.inr (by decide)), by decide, hrefused⟩

end Identifier

end Tlv
