import Tlv.Proofs.Strict

/-! # The order of SET elements

DER writes the elements of a SET in the ascending order of their octets. Octets can be compared
as they are, a proper initial part first, or with the shorter ones padded by zeros. Units do not
begin like one another, so both orders agree on them. Hence a SET is written as what it holds, and
two SETs are equal only if they hold equal elements.
-/

namespace Tlv

namespace Octets

variable {s t : Octets} {ss : List Octets}

/-- The order of octets, of which the shorter are padded by zeros at their end. -/
def paddedLe (s t : Octets) : Bool := le (s.rightpad t.length 0) (t.rightpad s.length 0)

theorem rightpad_succ_cons (n : Nat) (a : UInt8) (s : Octets) :
    List.rightpad (n + 1) 0 (a :: s) = a :: List.rightpad n 0 s := by
  simp [List.rightpad]

theorem zeros_le (t : Octets) : le (List.replicate t.length 0) t = true := by
  induction t with
  | nil => rfl
  | cons b t ih =>
    rw [List.length_cons, List.replicate_succ, cons_le_cons_iff]
    rcases UInt8.lt_or_eq_of_le (UInt8.zero_le (a := b)) with h | h
    · exact .inl h
    · exact .inr ⟨h, ih⟩

theorem paddedLe_of_le (h : le s t = true) : paddedLe s t = true := by
  unfold paddedLe
  induction s generalizing t with
  | nil => simpa [List.rightpad] using zeros_le t
  | cons a s ih =>
    cases t with
    | nil => cases h
    | cons b t =>
      rw [List.length_cons, List.length_cons, rightpad_succ_cons, rightpad_succ_cons,
        cons_le_cons_iff]
      exact (cons_le_cons_iff.1 h).imp_right (.imp_right ih)

theorem prefix_rightpad (s : Octets) (n : Nat) : s <+: s.rightpad n 0 := List.prefix_append s _

/-- Octets that differ in the zeros at their end only are the same in the padded order. -/
theorem prefix_or_prefix_of_paddedLe (h : paddedLe s t = true) (h' : paddedLe t s = true) :
    s <+: t ∨ t <+: s := by
  have he : s.rightpad t.length 0 = t.rightpad s.length 0 := le_antisymm h h'
  exact List.prefix_or_prefix_of_prefix (prefix_rightpad s _) (he ▸ prefix_rightpad t _)

theorem paddedLe_iff (hst : s <+: t → s = t) (hts : t <+: s → t = s) :
    paddedLe s t = true ↔ le s t = true := by
  constructor
  · intro h
    refine (le_total s t).elim id fun h' => ?_
    have he : s = t := (prefix_or_prefix_of_paddedLe h (paddedLe_of_le h')).elim hst
      fun hp => (hts hp).symm
    exact he ▸ le_refl s
  · exact paddedLe_of_le

theorem pairwise_paddedLe_iff (hp : ∀ s ∈ ss, ∀ t ∈ ss, s <+: t → s = t) :
    ss.Pairwise (fun s t => paddedLe s t = true) ↔ ss.Pairwise fun s t => le s t = true := by
  refine List.Pairwise.iff_of_mem fun hs ht => ?_
  exact paddedLe_iff (hp _ hs _ ht) (hp _ ht _ hs)

end Octets

namespace Value

variable {xs zs : List Value} {ss : List Octets}

theorem sortedDer_eq_of_pairwise (hp : ss.Perm (xs.map der))
    (hs : ss.Pairwise fun s t => Octets.le s t = true) : sortedDer xs = ss :=
  List.Perm.eq_of_pairwise (fun _ _ _ _ => Octets.le_antisymm) (Octets.pairwise_mergeSort _) hs
    ((List.mergeSort_perm _ _).trans hp.symm)

theorem set_beq_iff_perm : set xs == set zs ↔ (xs.map der).Perm (zs.map der) := by
  constructor
  · intro h
    have hs : sortedDer xs = sortedDer zs := by
      cases alike_of_beq h with
      | refl => rfl
      | set h => exact h
    have hp := List.mergeSort_perm (zs.map der) Octets.le
    rw [← sortedDer, ← hs] at hp
    exact (List.mergeSort_perm _ _).symm.trans hp
  · intro h
    exact beq_iff_alike.2 (.set (Octets.mergeSort_eq_of_perm h))

theorem exists_perm_of_perm_der (hx : AllValid xs) (hz : AllValid zs)
    (hl : ∀ v ∈ xs, v.der.length < UInt64.size) (h : (xs.map der).Perm (zs.map der)) :
    ∃ us, us.Perm zs ∧ List.Forall₂ (fun v w => v == w) xs us := by
  have hder : List.Forall₂ (fun s w => s = der w) (zs.map der) zs :=
    List.forall₂_map_left_iff.2 (List.forall₂_same.2 fun _ _ => rfl)
  obtain ⟨us, hus, hperm⟩ := List.perm_comp_forall₂ h hder
  refine ⟨us, hperm, forall₂_imp_of_mem (List.forall₂_map_left_iff.1 hus) fun v hv w hw he => ?_⟩
  exact beq_of_der_eq (allValid_iff.1 hx v hv) (allValid_iff.1 hz w (hperm.mem_iff.1 hw)) (hl v hv)
    he

theorem set_beq_iff (hx : AllValid xs) (hz : AllValid zs)
    (hl : ∀ v ∈ xs, v.der.length < UInt64.size) :
    set xs == set zs ↔ ∃ us, us.Perm zs ∧ List.Forall₂ (fun v w => v == w) xs us := by
  rw [set_beq_iff_perm]
  constructor
  · exact exists_perm_of_perm_der hx hz hl
  · rintro ⟨us, hp, h⟩
    rw [map_der_eq_of_beq h]
    exact hp.map der

theorem octets_set_of_ne_der {rule : Rule} (hr : rule ≠ .der) (xs : List Value) :
    (set xs).octets rule = Encoding.frame ⟨UniversalType.set.tag, true⟩ rule.indefiniteLengths
      (xs.flatMap (octets rule)) := by
  have hsorted : rule.sortedSets = false := by
    cases rule with
    | der => exact absurd rfl hr
    | _ => rfl
  rw [octets, encoding, hsorted, if_neg Bool.false_ne_true, Encoding.octets, joined_encodings]

theorem prefix_der_of_lt (hl : ∀ v ∈ xs, v.der.length < UInt64.size) :
    ∀ s ∈ xs.map der, ∀ t ∈ xs.map der, s <+: t → s = t := by
  simp only [List.forall_mem_map]
  exact fun v hv w hw => (isUnit_der (hl v hv)).prefix_eq (isUnit_der (hl w hw))

/-- A SET does not depend on the order of its elements. Its DER contents are the octets of all
elements in ascending order, whether shorter octets are padded or not. BER and DL write the
elements as they stand. Equal SETs hold equal elements, each as often as the other; lengths are
64-bit numbers, so that the octets of an element must be fewer than `2 ^ 64` for this. -/
theorem order_of_set (xs : List Value) :
    (∀ ys, ys.Perm xs → set xs == set ys ∧ (set xs).der = (set ys).der) ∧
    (set xs).der = Encoding.frame ⟨UniversalType.set.tag, true⟩ false (set xs).derContents ∧
    (∃ ss : List Octets, ss.Perm (xs.map der) ∧ ss.Pairwise (fun s t => Octets.le s t = true) ∧
      ss.Pairwise (fun s t => Octets.paddedLe s t = true) ∧
      (set xs).derContents = ss.flatten) ∧
    (∀ rule ≠ .der, (set xs).octets rule =
      Encoding.frame ⟨UniversalType.set.tag, true⟩ rule.indefiniteLengths
        (xs.flatMap (octets rule))) ∧
    ((∀ v ∈ xs, v.der.length < UInt64.size) →
      (∀ ss : List Octets, ss.Perm (xs.map der) →
        ss.Pairwise (fun s t => Octets.paddedLe s t = true) →
          (set xs).derContents = ss.flatten) ∧
      ∀ zs, AllValid xs → AllValid zs →
        (set xs == set zs ↔ ∃ us, us.Perm zs ∧ List.Forall₂ (fun v w => v == w) xs us)) := by
  refine ⟨fun ys hp => ?_, der_eq_frame _, ?_, fun rule hr => octets_set_of_ne_der hr xs, ?_⟩
  · have h : set xs == set ys := set_beq_iff_perm.2 (hp.symm.map der)
    exact ⟨h, der_eq_of_beq h⟩
  · have hs : (sortedDer xs).Pairwise fun s t => Octets.le s t = true := Octets.pairwise_mergeSort _
    exact ⟨sortedDer xs, List.mergeSort_perm _ _, hs, hs.imp Octets.paddedLe_of_le,
      derContents_set xs⟩
  · intro hl
    refine ⟨fun ss hp hs => ?_, fun zs hx hz => set_beq_iff hx hz hl⟩
    have hprefix : ∀ s ∈ ss, ∀ t ∈ ss, s <+: t → s = t := fun s hs t ht =>
      prefix_der_of_lt hl s (hp.mem_iff.1 hs) t (hp.mem_iff.1 ht)
    rw [derContents_set, sortedDer_eq_of_pairwise hp ((Octets.pairwise_paddedLe_iff hprefix).1 hs)]

def repeatedElements : List Value := [.integer (.ofInt 2), .boolean true, .integer (.ofInt 2)]

theorem order_of_set_repeatedElements :
    (set repeatedElements).derContents = [0x01, 1, 0xFF, 0x02, 1, 2, 0x02, 1, 2] ∧
    (set repeatedElements).octets .ber =
      [0x31, 0x80, 0x02, 1, 2, 0x01, 1, 0xFF, 0x02, 1, 2, 0, 0] ∧
    ∃ us, us.Perm [.integer (.ofInt 2), .integer (.ofInt 2), .boolean true] ∧
      List.Forall₂ (fun v w => v == w) repeatedElements us := by
  have hder : repeatedElements.map der = [[0x02, 1, 2], [0x01, 1, 0xFF], [0x02, 1, 2]] := by cbv
  have hl : ∀ s ∈ repeatedElements.map der, s.length < UInt64.size := by
    rw [hder]
    decide
  have hperm : List.Perm [.integer (.ofInt 2), .integer (.ofInt 2), .boolean true]
      repeatedElements := .cons _ (.swap _ _ _)
  obtain ⟨horder, -, -, hstored, hlt⟩ := order_of_set repeatedElements
  obtain ⟨hpadded, hequal⟩ := hlt (List.forall_mem_map.1 hl)
  refine ⟨?_, ?_, ?_⟩
  · refine hpadded [[0x01, 1, 0xFF], [0x02, 1, 2], [0x02, 1, 2]] ?_ (by decide)
    rw [hder]
    exact .swap _ _ _
  · rw [hstored .ber (by decide)]
    cbv
  · refine (hequal _ ?_ ?_).1 (horder _ hperm).1
    · exact ⟨trivial, trivial, trivial, trivial⟩
    · exact ⟨trivial, trivial, trivial, trivial⟩

end Value

end Tlv
