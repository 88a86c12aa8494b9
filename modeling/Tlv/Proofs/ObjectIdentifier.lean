import Mathlib.Data.List.Basic
import Tlv.Oid
import Tlv.Proofs.HeaderGrammar

/-! # Object identifiers as paths

Contents without fault spell each of their numbers in the one way there is, so an identifier can be
told from its numbers, from its arcs, and from its dotted text.
-/

namespace Tlv

theorem Decimal.write_injective : Function.Injective write := by
  intro m n h
  calc
    m = Nat.ofDigitChars 10 (write m) 0 := Nat.ofDigitChars_ten_toDigits.symm
    _ = Nat.ofDigitChars 10 (write n) 0 := by rw [h]
    _ = n := Nat.ofDigitChars_ten_toDigits

theorem Decimal.dot_not_mem_write (n : Nat) : '.' ∉ write n := by
  intro h
  exact absurd (Nat.isDigit_of_mem_toDigits (by decide) (by decide) h) (by decide)

namespace Oid

open Base128 (continued continues)

/-- Written out again, the numbers are the octets, with the groups of a number that was begun before
them. -/
theorem flatMap_numbersFrom {groups acc : Nat} {s : Octets} (hf : faultFrom groups s = none)
    (hacc : acc = 0 → groups = 0) (hnil : s = [] → acc = 0)
    (hlast : ∀ b ∈ s.getLast?, continues b = false) :
    (numbersFrom acc s).flatMap Base128.octets = continued acc ++ s := by
  induction s generalizing groups acc with
  | nil =>
    rw [hnil rfl, Base128.continued_zero]
    rfl
  | cons b s ih =>
    obtain ⟨hlead, -, hf⟩ := faultFrom_cons_eq_none_iff.1 hf
    have htail : ∀ c ∈ s.getLast?, continues c = false := by
      intro c hc
      exact hlast c (List.mem_getLast?_cons hc)
    cases hb : continues b with
    | true =>
      have hs : s ≠ [] := by
        rintro rfl
        cases hb.symm.trans (hlast b rfl)
      have hpos : 0 < acc * 128 + Base128.bits b :=
        Base128.pos_of_ne_empty hb fun hz h80 => hlead ⟨hacc hz, h80⟩
      rw [if_pos hb] at hf
      simp only [numbersFrom, hb, if_true]
      rw [ih hf (fun hz => absurd hz (by omega)) (fun h => absurd h hs) htail,
        Base128.continued_group hb hpos, List.append_assoc]
      rfl
    | false =>
      rw [hb, if_neg Bool.false_ne_true] at hf
      simp only [numbersFrom, hb, Bool.false_eq_true, if_false, List.flatMap_cons]
      rw [ih hf (fun _ => rfl) (fun _ => rfl) htail, Base128.octets_group hb,
        Base128.continued_zero, List.append_assoc]
      rfl

theorem fault?_eq_none_iff {s : Octets} :
    fault? s = none ↔
      s ≠ [] ∧ (∀ b ∈ s.getLast?, continues b = false) ∧ faultFrom 0 s = none := by
  rcases List.eq_nil_or_concat s with rfl | ⟨s, b, rfl⟩
  · simp [fault?]
  · cases hb : continues b <;> simp [fault?, hb]

theorem faultFrom_eq_none (id : Oid) : faultFrom 0 id.octets = none :=
  (fault?_eq_none_iff.1 id.valid).2.2

theorem flatMap_numbers (id : Oid) : (numbers id.octets).flatMap Base128.octets = id.octets := by
  obtain ⟨-, hlast, hf⟩ := fault?_eq_none_iff.1 id.valid
  have hs : (numbersFrom 0 id.octets).flatMap Base128.octets = continued 0 ++ id.octets :=
    flatMap_numbersFrom hf (fun _ => rfl) (fun _ => rfl) hlast
  rwa [Base128.continued_zero] at hs

theorem exists_numbers_eq (id : Oid) : ∃ n ns, numbers id.octets = n :: ns := by
  apply List.exists_cons_of_ne_nil
  intro h
  have hs := id.flatMap_numbers
  have hv := id.valid
  rw [← hs, h] at hv
  cases hv

theorem numbers_injective : Function.Injective fun id : Oid => numbers id.octets := by
  intro a b h
  have hs : a.octets = b.octets := by
    rw [← a.flatMap_numbers, ← b.flatMap_numbers]
    exact congrArg (List.flatMap Base128.octets) h
  cases a
  cases b
  simpa using hs

theorem arcs_injective : Function.Injective arcs := by
  intro a b h
  obtain ⟨m, ms, hm⟩ := a.exists_numbers_eq
  obtain ⟨n, ns, hn⟩ := b.exists_numbers_eq
  simp only [arcs, hm, hn, List.cons.injEq] at h
  obtain ⟨hfirst, hsecond, rfl⟩ := h
  have hmn : m = n := by omega
  apply numbers_injective
  simp only [hm, hn, hmn]

theorem arcs_ne_nil (id : Oid) : id.arcs ≠ [] := by
  obtain ⟨n, ns, hn⟩ := id.exists_numbers_eq
  simp [arcs, hn]

/-- The dots tell where the numbers of a text end. -/
theorem splitOn_text (id : Oid) : id.text.toList.splitOn '.' = id.arcs.map Decimal.write := by
  rw [text, String.toList_ofList]
  apply List.splitOn_intercalate
  · simp only [List.forall_mem_map]
    exact fun n _ => Decimal.dot_not_mem_write n
  · simpa using id.arcs_ne_nil

theorem text_injective : Function.Injective text := by
  intro a b h
  apply arcs_injective
  apply List.map_injective_iff.2 Decimal.write_injective
  rw [← a.splitOn_text, ← b.splitOn_text, h]

end Oid

end Tlv
