import Mathlib.Data.List.Permutation
import Tlv.Proofs.Reread

/-! # Canonical octets

DER octets are read back as a value equal to the one they were written for. A reading gives one
value only, so DER octets tell values apart just as far as equality does.
-/

namespace Tlv

namespace Value

variable {v w : Value} {vs ws : List Value}

theorem reread_der_beq (v : Value) : v.reread .der == v :=
  v.reread_beq fun hn => absurd rfl hn

/-- DER octets are read back as an equal value, which is written as the same octets. -/
theorem ofOctets_der {options : ReaderOptions} (hv : v.Valid) (hr : options.rule = .der)
    (hw : (v.wire .der).Within options) :
    ∃ w, ofOctets options v.der = .ok w ∧ w == v ∧ w.der = v.der :=
  ⟨_, ofOctets_octets hv hr hw, reread_der_beq v, der_eq_of_beq (reread_der_beq v)⟩

theorem ofOctets_der_hiddenSet :
    ∃ w, ofOctets (.ofRule .der) [0xA0, 6, 0x01, 1, 0xFF, 0x02, 1, 2] = .ok w ∧ w == hiddenSet ∧
      w.der = hiddenSet.der := by
  have hd : hiddenSet.der = [0xA0, 6, 0x01, 1, 0xFF, 0x02, 1, 2] := by cbv
  rw [← hd]
  exact ofOctets_der valid_hiddenSet rfl ⟨by cbv, by cbv⟩

/-- What the DER octets are read back as equals every value that they were written for. -/
theorem beq_of_der_eq (hv : v.Valid) (hw : w.Valid) (hl : v.der.length < UInt64.size)
    (h : v.der = w.der) : v == w := by
  let options : ReaderOptions := ⟨.der, UInt64.ofNat v.der.length, UInt64.ofNat v.der.length⟩
  have within {u : Value} (hu : u.der = v.der) : (u.wire .der).Within options := by
    have hlimit : (UInt64.ofNat v.der.length).toNat = (u.wire .der).octets.length := by
      rw [octets_wire, UInt64.toNat_ofNat', Nat.mod_eq_of_lt hl, ← hu]
      rfl
    exact ⟨hlimit ▸ Wire.depth_le_length _, hlimit ▸ Wire.longest_le_length _⟩
  have hx : ofOctets options v.der = .ok (v.reread .der) := ofOctets_octets hv rfl (within rfl)
  have hy : ofOctets options w.der = .ok (w.reread .der) :=
    ofOctets_octets hw rfl (within h.symm)
  rw [← h, hx] at hy
  apply beq_trans (beq_symm (reread_der_beq v))
  rw [Except.ok.inj hy]
  exact reread_der_beq w

theorem isUnit_der (hl : v.der.length < UInt64.size) : Encoding.IsUnit v.der := by
  refine ⟨v.identifier, v.derContents, Nat.lt_trans ?_ hl, der_eq_frame v⟩
  rw [der_eq_frame]
  exact Encoding.length_lt_frame _ _ _

theorem length_der_lt {n : Nat} (hl : (vs.flatMap der).length < n) :
    ∀ v ∈ vs, v.der.length < n := by
  intro v hv
  obtain ⟨us, us', rfl⟩ := List.append_of_mem hv
  simp only [List.flatMap_append, List.flatMap_cons, List.length_append] at hl
  omega

theorem isUnit_map_der (hl : (vs.flatMap der).length < UInt64.size) :
    ∀ s ∈ vs.map der, Encoding.IsUnit s :=
  List.forall_mem_map.2 fun v hv => isUnit_der (length_der_lt hl v hv)

theorem forall₂_beq_of_map_der_eq (hv : AllValid vs) (hw : AllValid ws)
    (hl : ∀ v ∈ vs, v.der.length < UInt64.size) (h : vs.map der = ws.map der) :
    List.Forall₂ (fun v w => v == w) vs ws := by
  induction vs generalizing ws with
  | nil =>
    rw [List.map_eq_nil_iff.1 h.symm]
    exact .nil
  | cons v vs ih =>
    cases ws with
    | nil => cases h
    | cons w ws =>
      obtain ⟨h, hs⟩ := List.cons.inj h
      rw [List.forall_mem_cons] at hl
      exact .cons (beq_of_der_eq hv.1 hw.1 hl.1 h) (ih hv.2 hw.2 hl.2 hs)

theorem forall₂_beq_of_flatMap_der_eq (hv : AllValid vs) (hw : AllValid ws)
    (hl : (vs.flatMap der).length < UInt64.size) (h : vs.flatMap der = ws.flatMap der) :
    List.Forall₂ (fun v w => v == w) vs ws := by
  apply forall₂_beq_of_map_der_eq hv hw (length_der_lt hl)
  apply Encoding.flatten_inj (isUnit_map_der hl) (isUnit_map_der (h ▸ hl))
  rw [← List.flatMap_def, h, List.flatMap_def]

theorem sortedDer_eq_of_forall₂ {us : List Value} (hp : us.Perm ws)
    (h : List.Forall₂ (fun v w => v == w) vs us) : sortedDer vs = sortedDer ws := by
  rw [← sortedDer_eq_of_perm hp, sortedDer, map_der_eq_of_beq h, sortedDer]

/-- The contents of a SET settle the elements up to their order. -/
theorem exists_perm_of_derContents_eq (hv : AllValid vs) (hw : AllValid ws)
    (hl : (vs.flatMap der).length < UInt64.size)
    (h : (set vs).derContents = (set ws).derContents) :
    ∃ us, us.Perm ws ∧ List.Forall₂ (fun v w => v == w) vs us := by
  have flat (us : List Value) : (set us).derContents = (arranged .der us).flatMap der := by
    rw [derContents_set, flatMap_der_arranged rfl]
  have valid {us : List Value} (hu : AllValid us) : AllValid (arranged .der us) := by
    rw [allValid_iff] at hu ⊢
    intro u hmem
    exact hu u ((arranged_perm .der us).mem_iff.1 hmem)
  have hlen : ((arranged .der vs).flatMap der).length = (vs.flatMap der).length :=
    ((arranged_perm .der vs).flatMap_right der).length_eq
  rw [flat, flat] at h
  have hs := forall₂_beq_of_flatMap_der_eq (valid hv) (valid hw) (hlen ▸ hl) h
  obtain ⟨us, hu, hp⟩ := List.perm_comp_forall₂ (arranged_perm .der vs).symm hs
  exact ⟨us, hp.trans (arranged_perm .der ws), hu⟩

/-- Equality is equality of DER octets, hence an equivalence relation. The octets of elements, one
after the other, settle the elements one by one, and those of a SET settle them up to order. Lengths
are 64-bit numbers, so the octets must be fewer than `2 ^ 64`. -/
theorem canonical_equality :
    (∀ v w : Value, v.Valid → w.Valid → v.der.length < UInt64.size → (v == w ↔ v.der = w.der)) ∧
    (Equivalence fun v w : Value => v == w) ∧
    (∀ vs ws : List Value, AllValid vs → AllValid ws → (vs.flatMap der).length < UInt64.size →
      (vs.flatMap der = ws.flatMap der ↔ List.Forall₂ (fun v w => v == w) vs ws)) ∧
    ∀ vs ws : List Value, AllValid vs → AllValid ws → (vs.flatMap der).length < UInt64.size →
      ((set vs).derContents = (set ws).derContents ↔
        ∃ us, us.Perm ws ∧ List.Forall₂ (fun v w => v == w) vs us) := by
  refine ⟨?_, ⟨beq_refl, beq_symm, beq_trans⟩, ?_, ?_⟩
  · intro v w hv hw hl
    exact ⟨der_eq_of_beq, beq_of_der_eq hv hw hl⟩
  · intro vs ws hv hw hl
    exact ⟨forall₂_beq_of_flatMap_der_eq hv hw hl, flatMap_der_eq_of_beq⟩
  · intro vs ws hv hw hl
    constructor
    · exact exists_perm_of_derContents_eq hv hw hl
    · rintro ⟨us, hp, h⟩
      rw [derContents_set, derContents_set, sortedDer_eq_of_forall₂ hp h]

theorem canonical_equality_hiddenSet :
    hiddenSet == .tagged (.raw (.context 0) .der
      (.constructed [.boolean true, .integer (.ofInt 2)])) := by
  refine (canonical_equality.1 _ _ valid_hiddenSet ?_ (by cbv)).2 (by cbv)
  exact ⟨by decide, trivial, trivial, trivial⟩

end Value

end Tlv
