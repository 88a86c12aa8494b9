import Tlv.Proofs.Canonical

/-! # The three forms

DER octets are read back as an equal value. BER and DL octets keep the order of SET elements and
the unused bits of BIT STRINGs, which does not matter as long as the reader knows the type. An
implicit tag hides it, and the raw object that is read differs from the value exactly if the
hidden contents are not in the form of DER. The reason is that reading back never makes the DER
contents smaller in the order of octets, and keeps them only if nothing was out of order.
-/

namespace Tlv

open Octets (Below)

theorem BitString.below_cleared (b : BitString) : Below b.cleared b.data := by
  rw [cleared]
  rcases List.eq_nil_or_concat b.data with h | ⟨s, a, h⟩
  · rw [h]
    exact .refl []
  · have hlast : Below [clearLow b.unused a] [a] := by
      refine ⟨rfl, Octets.cons_le_cons_iff.2 ?_⟩
      rcases UInt8.lt_or_eq_of_le (clearLow_le b.unused a) with hlt | he
      · exact .inl hlt
      · exact .inr ⟨he, rfl⟩
    rw [h]
    simpa [mapLast] using (Below.refl s).append hlast

theorem Encoding.below_frame (i : Identifier) {c d : Octets} (h : Below c d) :
    Below (frame i false c) (frame i false d) := by
  rw [frame, frame, h.1]
  exact (Below.refl _).append ((Below.refl _).append h)

theorem Encoding.frame_inj_of_length {i : Identifier} {c d : Octets} (hl : c.length = d.length)
    (h : frame i false c = frame i false d) : c = d := by
  rw [frame, frame, hl] at h
  exact List.append_cancel_left (List.append_cancel_left h)

namespace Value

variable {v w : Value} {vs : List Value} {rule : Rule}

theorem below_der {P : Prop} (hi : v.identifier = w.identifier)
    (h : Below v.derContents w.derContents ∧ (v.derContents = w.derContents → P)) :
    Below v.der w.der ∧ (v.der = w.der → P) := by
  rw [der_eq_frame, der_eq_frame w, hi]
  exact ⟨Encoding.below_frame _ h.1, fun he => h.2 (Encoding.frame_inj_of_length h.1.1 he)⟩

theorem length_derContents_lt (v : Value) : v.derContents.length < v.der.length := by
  rw [der_eq_frame]
  exact Encoding.length_lt_frame _ _ _

theorem below_rereadAll
    (h : ∀ v ∈ vs, Below v.der (v.reread rule).der ∧ (v.der = (v.reread rule).der → v.Settled)) :
    Below (vs.flatMap der) ((rereadAll rule vs).flatMap der) ∧
      (vs.flatMap der = (rereadAll rule vs).flatMap der → AllSettled vs) := by
  rw [rereadAll_eq_map, List.flatMap_map, allSettled_iff]
  exact Octets.below_flatMap h

theorem prefix_der (hl : (vs.flatMap der).length < UInt64.size) :
    ∀ v ∈ vs, ∀ w ∈ vs, v.der <+: w.der → v.der = w.der := by
  intro v hv w hw
  have hu := isUnit_map_der hl
  exact (hu _ (List.mem_map_of_mem hv)).prefix_eq (hu _ (List.mem_map_of_mem hw))

theorem below_sortedDer_rereadAll (hl : (vs.flatMap der).length < UInt64.size)
    (h : ∀ v ∈ vs, Below v.der (v.reread rule).der ∧ (v.der = (v.reread rule).der → v.Settled)) :
    Below (sortedDer vs).flatten (sortedDer (rereadAll rule vs)).flatten ∧
      ((sortedDer vs).flatten = (sortedDer (rereadAll rule vs)).flatten → AllSettled vs) := by
  have hs := Octets.below_sorted (prefix_der hl) fun v hv => (h v hv).1
  rw [sortedDer, sortedDer, rereadAll_eq_map, List.map_map]
  constructor
  · exact hs.1
  · intro he
    rw [allSettled_iff]
    intro v hv
    exact (h v hv).2 (hs.2 he v hv)

theorem pairwise_of_flatten_sortedDer (hl : (vs.flatMap der).length < UInt64.size)
    (h : (sortedDer vs).flatten = vs.flatMap der) :
    vs.Pairwise fun v w => Octets.le v.der w.der := by
  have hs : sortedDer vs = vs.map der := by
    refine Encoding.flatten_inj (fun s hs => ?_) (isUnit_map_der hl) h
    exact isUnit_map_der hl s ((List.mergeSort_perm _ _).mem_iff.1 hs)
  have hp := Octets.pairwise_mergeSort (vs.map der)
  rw [← sortedDer, hs] at hp
  exact List.pairwise_map.1 hp

/-- What is sorted is below all that its elements are below, and equal to it only if every element
is, and the elements stand in order. -/
theorem below_flatten_sortedDer {f : Value → Octets} {P : Value → Prop}
    (hl : (vs.flatMap der).length < UInt64.size)
    (h : ∀ v ∈ vs, Below v.der (f v) ∧ (v.der = f v → P v)) :
    Below (sortedDer vs).flatten (vs.flatMap f) ∧ ((sortedDer vs).flatten = vs.flatMap f →
      (∀ v ∈ vs, P v) ∧ vs.Pairwise fun v w => Octets.le v.der w.der) := by
  have hsort : Below (sortedDer vs).flatten (vs.flatMap der) := by
    rw [List.flatMap_def]
    apply Octets.below_flatten_mergeSort
    simp only [List.forall_mem_map]
    exact prefix_der hl
  obtain ⟨hall, hP⟩ := Octets.below_flatMap h
  constructor
  · exact hsort.trans hall
  · intro he
    have hmid : (sortedDer vs).flatten = vs.flatMap der := hsort.antisymm (he ▸ hall)
    exact ⟨hP (hmid.symm.trans he), pairwise_of_flatten_sortedDer hl hmid⟩

theorem length_derContents_set (vs : List Value) :
    (set vs).derContents.length = (vs.flatMap der).length := by
  rw [derContents_set, List.flatMap_def]
  exact (List.mergeSort_perm _ _).flatten.length_eq

end Value

section

variable {rule : Rule}

mutual

/-- Reading back does not make the DER octets smaller, and keeps them only if nothing is hidden
out of order. -/
theorem Value.below_reread (hr : rule ≠ .der) : ∀ v : Value, v.derContents.length < UInt64.size →
    Below v.der (v.reread rule).der ∧ (v.der = (v.reread rule).der → v.Settled)
  | .bitString b, _ => by
    rw [Value.reread, BitString.under, if_neg hr]
    exact ⟨.refl _, fun _ => trivial⟩
  | .sequence vs, hl => by
    apply Value.below_der
    · rfl
    rw [Value.derContents_sequence] at hl ⊢
    rw [Value.reread, Value.derContents_sequence]
    exact Value.below_rereadAll (Value.below_reread_of_mem hr vs hl)
  | .set vs, hl => by
    apply Value.below_der
    · rfl
    rw [Value.length_derContents_set] at hl
    rw [Value.reread, Value.derContents_set, Value.derContents_set,
      Value.sortedDer_eq_of_perm (Value.arranged_perm rule _)]
    exact Value.below_sortedDer_rereadAll hl (Value.below_reread_of_mem hr vs hl)
  | .tagged t, hl => by
    refine Value.below_der (congrArg (Identifier.mk t.tag) (t.isConstructed_held rule).symm) ?_
    rw [Value.reread, Value.derContents_tagged, Value.derContents_tagged, Tagged.derContents_raw]
    exact Tagged.below_held hr t hl
  | .unknown n c, hl => by
    refine Value.below_der
      (congrArg (Identifier.mk (.universal n.number)) (c.isConstructed_reread rule).symm) ?_
    rw [Value.derContents_unknown] at hl ⊢
    rw [Value.reread, Value.derContents_unknown]
    exact Contents.below_reread hr c hl
  | .boolean _, _ | .integer _, _ | .octetString _, _ | .null, _ | .oid _, _ | .enumerated _, _
  | .string _, _ => ⟨.refl _, fun _ => trivial⟩

theorem Value.below_held (hr : rule ≠ .der) : ∀ v : Value, v.derContents.length < UInt64.size →
    Below v.derContents (v.held rule).derContents ∧
      (v.derContents = (v.held rule).derContents → v.SettledUnderTag)
  | .bitString b, _ => by
    have hc : ((Value.bitString b).held rule).derContents = UInt8.ofNat b.unused :: b.data :=
      congrArg (List.cons _) (if_neg hr)
    rw [hc, Value.derContents_bitString]
    exact ⟨(Below.refl [_]).append b.below_cleared, fun he => (List.cons.inj he).2⟩
  | .sequence vs, hl => by
    rw [Value.derContents_sequence] at hl ⊢
    exact Value.below_rereadAll (Value.below_reread_of_mem hr vs hl)
  | .set vs, hl => by
    rw [Value.length_derContents_set] at hl
    have hc : ((Value.set vs).held rule).derContents =
        (Value.rereadAll rule vs).flatMap Value.der := by
      cases rule with
      | der => exact absurd rfl hr
      | _ => rfl
    rw [hc, Value.derContents_set, Value.rereadAll_eq_map, List.flatMap_map,
      Value.SettledUnderTag, Value.allSettled_iff]
    exact Value.below_flatten_sortedDer hl (Value.below_reread_of_mem hr vs hl)
  | .tagged t, hl => Tagged.below_held hr t hl
  | .unknown n c, hl => by
    rw [Value.derContents_unknown] at hl ⊢
    exact Contents.below_reread hr c hl
  | .boolean _, _ | .integer _, _ | .octetString _, _ | .null, _ | .oid _, _ | .enumerated _, _
  | .string _, _ => ⟨.refl _, fun _ => trivial⟩

theorem Tagged.below_held (hr : rule ≠ .der) : ∀ t : Tagged, t.derContents.length < UInt64.size →
    Below t.derContents (t.held rule).derContents ∧
      (t.derContents = (t.held rule).derContents → t.Settled)
  | .explicit tag base, hl => by
    have hc : ((Tagged.explicit tag base).held rule).derContents = (base.reread rule).der :=
      List.append_nil _
    rw [Tagged.derContents_explicit] at hl ⊢
    rw [hc]
    exact Value.below_reread hr base (Nat.lt_trans base.length_derContents_lt hl)
  | .implicit tag base, hl => by
    rw [Tagged.derContents_implicit] at hl ⊢
    exact Value.below_held hr base hl
  | .raw tag _ c, hl => by
    rw [Tagged.derContents_raw] at hl ⊢
    exact Contents.below_reread hr c hl

theorem Contents.below_reread (hr : rule ≠ .der) :
    ∀ c : Contents, c.derContents.length < UInt64.size →
      Below c.derContents (c.reread rule).derContents ∧
        (c.derContents = (c.reread rule).derContents → c.Settled)
  | .primitive s, _ => ⟨.refl s, fun _ => trivial⟩
  | .constructed vs, hl => Value.below_rereadAll (Value.below_reread_of_mem hr vs hl)

theorem Value.below_reread_of_mem (hr : rule ≠ .der) :
    ∀ vs : List Value, (vs.flatMap Value.der).length < UInt64.size →
      ∀ v ∈ vs, Below v.der (v.reread rule).der ∧ (v.der = (v.reread rule).der → v.Settled)
  | [], _ => List.forall_mem_nil _
  | v :: vs, hl => by
    rw [List.flatMap_cons, List.length_append] at hl
    have hv := v.length_derContents_lt
    exact List.forall_mem_cons.2 ⟨Value.below_reread hr v (Nat.lt_of_le_of_lt (by omega) hl),
      Value.below_reread_of_mem hr vs (Nat.lt_of_le_of_lt (by omega) hl)⟩

end

end

namespace Value

variable {v : Value} {rule : Rule}

theorem reread_beq_iff (hr : rule ≠ .der) (hl : v.derContents.length < UInt64.size) :
    v.reread rule == v ↔ v.Settled := by
  constructor
  · intro h
    exact (below_reread hr v hl).2 (der_eq_of_beq h).symm
  · intro h
    exact v.reread_beq fun _ => h

theorem length_derContents_le_longest (v : Value) :
    v.derContents.length ≤ (v.wire .der).longest := by
  have ho : (v.encoding .der).isOpen = false := by
    rw [isOpen_encoding]
    exact Bool.and_false _
  rw [derContents, wire]
  cases he : v.encoding .der with
  | primitive tag s => exact Nat.le_refl _
  | constructed tag indefinite es =>
    obtain rfl : indefinite = false := by rwa [he] at ho
    rw [Encoding.contents, Encoding.wire, Wire.longest, Encoding.joined_wires, if_neg]
    · exact Nat.le_max_left _ _
    · simp [Header.shortest, LengthForm.shortest_ne_indefinite]

/-- All three forms are read back, the DER form as an equal value. The values read from BER and
DL are equal to it exactly if nothing that DER would put in order is hidden by implicit tags. -/
theorem forms_agree_iff {b l d : ReaderOptions} (hv : v.Valid) (hb : b.rule = .ber)
    (hl : l.rule = .dl) (hd : d.rule = .der) (wb : (v.wire .ber).Within b)
    (wl : (v.wire .dl).Within l) (wd : (v.wire .der).Within d) :
    ∃ x y z, ofOctets b (v.octets .ber) = .ok x ∧ ofOctets l (v.octets .dl) = .ok y ∧
      ofOctets d (v.octets .der) = .ok z ∧ z == v ∧ (x == v ↔ v.Settled) ∧ (y == v ↔ v.Settled) ∧
      (x == y ∧ y == z ∧ x == z ↔ v.Settled) := by
  have hlen : v.derContents.length < UInt64.size :=
    Nat.lt_of_le_of_lt (Nat.le_trans v.length_derContents_le_longest wd.2) d.lengthLimit.toNat_lt
  have hx : v.reread .ber == v ↔ v.Settled := reread_beq_iff (by decide) hlen
  have hy : v.reread .dl == v ↔ v.Settled := reread_beq_iff (by decide) hlen
  have hz := reread_der_beq v
  refine ⟨_, _, _, ofOctets_octets hv hb wb, ofOctets_octets hv hl wl, ofOctets_octets hv hd wd,
    hz, hx, hy, ?_⟩
  constructor
  · rintro ⟨_, _, hxz⟩
    exact hx.1 (beq_trans hxz hz)
  · intro h
    have hx := hx.2 h
    have hy := hy.2 h
    exact ⟨beq_trans hx (beq_symm hy), beq_trans hy (beq_symm hz), beq_trans hx (beq_symm hz)⟩

/-- A hidden SET in order. Below an explicit tag the order is free. -/
def hiddenInOrder : Value :=
  .tagged (.implicit (.context 0) (.set [.boolean true,
    .bitString ⟨3, [0xAF], by decide, by decide⟩,
    .tagged (.explicit (.context 5) (.set [.null, .boolean true]))]))

theorem forms_agree_hiddenInOrder :
    ∃ x y z, ofOctets (.ofRule .ber) (hiddenInOrder.octets .ber) = .ok x ∧
      ofOctets (.ofRule .dl) (hiddenInOrder.octets .dl) = .ok y ∧
      ofOctets (.ofRule .der) (hiddenInOrder.octets .der) = .ok z ∧ x == y ∧ y == z ∧ x == z := by
  have hv : hiddenInOrder.Valid :=
    ⟨by decide, trivial, trivial, ⟨by decide, trivial, trivial, trivial⟩, trivial⟩
  have hp : List.Pairwise (fun v w : Value => Octets.le v.der w.der) [.boolean true,
      .bitString ⟨3, [0xAF], by decide, by decide⟩,
      .tagged (.explicit (.context 5) (.set [.null, .boolean true]))] := by
    refine .cons (List.forall_mem_cons.2 ⟨by cbv, List.forall_mem_singleton.2 (by cbv)⟩) ?_
    exact .cons (List.forall_mem_singleton.2 (by cbv)) (List.pairwise_singleton _ _)
  have wb : (hiddenInOrder.wire .ber).Within (.ofRule .ber) := ⟨by cbv, by cbv⟩
  have wl : (hiddenInOrder.wire .dl).Within (.ofRule .dl) := ⟨by cbv, by cbv⟩
  have wd : (hiddenInOrder.wire .der).Within (.ofRule .der) := ⟨by cbv, by cbv⟩
  obtain ⟨x, y, z, hx, hy, hz, -, -, -, h⟩ := forms_agree_iff hv rfl rfl rfl wb wl wd
  exact ⟨x, y, z, hx, hy, hz, h.2 ⟨⟨trivial, trivial, ⟨trivial, trivial, trivial⟩, trivial⟩, hp⟩⟩

/-- The BER and DL forms of a hidden SET that is out of order are read as other values. -/
theorem forms_differ_hiddenSet :
    hiddenSet.Valid ∧
      (∃ x, ofOctets (.ofRule .ber) [0xA0, 0x80, 0x02, 1, 2, 0x01, 1, 0xFF, 0, 0] = .ok x ∧
        hiddenSet.octets .ber = [0xA0, 0x80, 0x02, 1, 2, 0x01, 1, 0xFF, 0, 0] ∧
        (x == hiddenSet) = false) ∧
      ∃ y, ofOctets (.ofRule .dl) [0xA0, 6, 0x02, 1, 2, 0x01, 1, 0xFF] = .ok y ∧
        hiddenSet.octets .dl = [0xA0, 6, 0x02, 1, 2, 0x01, 1, 0xFF] ∧ (y == hiddenSet) = false := by
  have hb : hiddenSet.octets .ber = [0xA0, 0x80, 0x02, 1, 2, 0x01, 1, 0xFF, 0, 0] := by cbv
  have hl : hiddenSet.octets .dl = [0xA0, 6, 0x02, 1, 2, 0x01, 1, 0xFF] := by cbv
  refine ⟨valid_hiddenSet, ⟨hiddenSet.reread .ber, ?_, hb, by cbv⟩,
    ⟨hiddenSet.reread .dl, ?_, hl, by cbv⟩⟩
  · rw [← hb]
    exact ofOctets_octets valid_hiddenSet rfl ⟨by cbv, by cbv⟩
  · rw [← hl]
    exact ofOctets_octets valid_hiddenSet rfl ⟨by cbv, by cbv⟩

end Value

end Tlv
