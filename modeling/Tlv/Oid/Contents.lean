import Tlv.Error
import Tlv.Numeral.Base128

/-! # Contents of object identifiers

The contents octets are numbers in base 128, one after the other. A number has no leading zero
group and at most nine groups, so that it has one spelling and fits 63 bits. The main fact is
`fault?_flatMap`: numbers below the bound, written one after the other, have no fault.
-/

namespace Tlv.Oid

/-- Arcs are below this bound: nine groups of seven bits. -/
def arcBound : Nat := 0x8000000000000000

/-- The first fault in a run of numbers, `groups` groups into the current one. -/
def faultFrom (groups : Nat) : Octets → Option Malformation
  | [] => none
  | b :: s =>
    if groups = 0 && b = 0x80 then some .zeroLeadingArc
    else if 9 ≤ groups then some .arcTooLong
    else faultFrom (if Base128.continues b then groups + 1 else 0) s

/-- What keeps the octets from being the contents of an object identifier. -/
def fault? (s : Octets) : Option Malformation :=
  match s.getLast? with
  | none => some .emptyOid
  | some b => if Base128.continues b then some .truncatedArc else faultFrom 0 s

/-- The numbers that the octets spell, `acc` being what the current one has so far. -/
def numbersFrom (acc : Nat) : Octets → List Nat
  | [] => []
  | b :: s =>
    let n := acc * 128 + Base128.bits b
    if Base128.continues b then numbersFrom n s else n :: numbersFrom 0 s

def numbers (s : Octets) : List Nat := numbersFrom 0 s

open Base128 (continued continues)

/-- One more octet neither opens a number with an empty group nor follows on nine groups. -/
theorem faultFrom_cons_eq_none_iff {groups : Nat} {b : UInt8} {s : Octets} :
    faultFrom groups (b :: s) = none ↔
      ¬(groups = 0 ∧ b = 0x80) ∧ groups < 9 ∧
        faultFrom (if continues b then groups + 1 else 0) s = none := by
  rw [faultFrom]
  simp only [Bool.and_eq_true, decide_eq_true_eq]
  split
  · simp_all
  · split
    · simp
      omega
    · simp_all

/-- All groups of an arc but the last are at most eight. -/
theorem length_continued_le {n : Nat} (h : n < arcBound) : (continued (n / 128)).length ≤ 8 := by
  rcases Nat.eq_zero_or_pos (n / 128) with h0 | h0
  · simp [h0, Base128.continued_zero]
  · have : Nat.log2 (n / 128) < 56 :=
      (Nat.log2_lt (by omega)).2 (by rw [arcBound] at h; omega)
    rw [Base128.length_continued h0, Base128.width]
    omega

/-- Groups with bit 8 set only raise the count, as long as there are at most nine. -/
theorem faultFrom_continued {n : Nat} (h : n < arcBound) (t : Octets) :
    faultFrom 0 (continued n ++ t) = faultFrom (continued n).length t := by
  induction n using Nat.strongRecOn generalizing t with
  | _ n ih =>
    rcases Nat.eq_zero_or_pos n with rfl | hn
    · simp [Base128.continued_zero]
    · have hlen := length_continued_le h
      rw [Base128.continued_of_pos hn, List.append_assoc,
        ih _ (Nat.div_lt_self hn (by omega)) (by omega), List.singleton_append, faultFrom, if_neg,
        if_neg (by omega), Base128.continues_high, List.length_append]
      · rfl
      · rcases Nat.eq_zero_or_pos (n / 128) with h0 | h0
        · simp [← UInt8.toNat_inj]; omega
        · simp [Base128.continued_ne_nil h0]

/-- A number in base 128 leaves no fault behind. -/
theorem faultFrom_octets {n : Nat} (h : n < arcBound) (t : Octets) :
    faultFrom 0 (Base128.octets n ++ t) = faultFrom 0 t := by
  have hlen := length_continued_le h
  rw [Base128.octets, List.append_assoc,
    faultFrom_continued (by omega), List.singleton_append, faultFrom,
    if_neg, if_neg (by omega), Base128.continues_low, if_neg (by simp)]
  rw [Bool.and_eq_true, decide_eq_true_eq, decide_eq_true_eq, ← UInt8.toNat_inj]
  simp; omega

/-- Numbers one after the other leave no fault behind. -/
theorem faultFrom_flatMap {ns : List Nat} (h : ∀ n ∈ ns, n < arcBound) (t : Octets) :
    faultFrom 0 (ns.flatMap Base128.octets ++ t) = faultFrom 0 t := by
  induction ns with
  | nil => rfl
  | cons n ns ih =>
    rw [List.flatMap_cons, List.append_assoc, faultFrom_octets (h n List.mem_cons_self),
      ih fun m hm => h m (List.mem_cons_of_mem _ hm)]

/-- Behind complete numbers without fault, faults are those of what follows. -/
theorem faultFrom_append {groups : Nat} {s : Octets} (h : faultFrom groups s = none)
    (hlast : ∀ b ∈ s.getLast?, continues b = false) (hs : s ≠ []) (t : Octets) :
    faultFrom groups (s ++ t) = faultFrom 0 t := by
  induction s generalizing groups with
  | nil => exact absurd rfl hs
  | cons b s ih =>
    rw [faultFrom_cons_eq_none_iff] at h
    obtain ⟨hlead, hgroups, h⟩ := h
    rw [List.cons_append, faultFrom, if_neg (by simpa using hlead), if_neg (by omega)]
    cases s with
    | nil => simp [hlast b rfl]
    | cons c s => exact ih h (by simpa using hlast) (List.cons_ne_nil _ _)

/-- The last octet of a number does not announce another group. -/
theorem fault?_append_octets (s : Octets) (n : Nat) :
    fault? (s ++ Base128.octets n) = faultFrom 0 (s ++ Base128.octets n) := by
  simp [fault?, Base128.octets, List.getLast?_append, Base128.continues_low]

theorem fault?_flatMap {ns : List Nat} (hne : ns ≠ []) (h : ∀ n ∈ ns, n < arcBound) :
    fault? (ns.flatMap Base128.octets) = none := by
  obtain ⟨ms, n, rfl⟩ := (List.eq_nil_or_concat ns).resolve_left hne
  have hf := faultFrom_flatMap h []
  rw [List.append_nil] at hf
  simp only [List.concat_eq_append, List.flatMap_append, List.flatMap_singleton] at hf ⊢
  rw [fault?_append_octets, hf]
  rfl

/-- One more number leaves contents without fault. -/
theorem fault?_append {s : Octets} {n : Nat} (hs : fault? s = none) (h : n < arcBound) :
    fault? (s ++ Base128.octets n) = none := by
  rw [fault?_append_octets]
  have hn := faultFrom_octets h []
  rw [List.append_nil] at hn
  unfold fault? at hs
  split at hs <;> try contradiction
  rename_i b hb
  split at hs <;> try contradiction
  rw [faultFrom_append hs (by simp_all) (by rintro rfl; simp at hb), hn]
  rfl

end Tlv.Oid
