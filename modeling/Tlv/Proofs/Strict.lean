import Tlv.Proofs.Forms
import Tlv.Proofs.Transcoding

/-! # DER input

Under DER a unit has one header, and what stands behind it is kept as it is. So DL writes a value
that was read as the very octets that it was read from. DER need not: a reader takes the elements
of a SET in any order. This is the only freedom that DER input has left, for DER writes a value as
the octets that it was read from exactly if every SET in it is in order.
-/

namespace Tlv

open Octets (Below)

mutual

def Wire.shortest : Wire → Encoding
  | .primitive h s => .primitive h.tag s
  | .constructed h ws => .constructed h.tag false (Wire.shortests ws)

def Wire.shortests : List Wire → List Encoding
  | [] => []
  | w :: ws => w.shortest :: Wire.shortests ws

end

mutual

/-- DER admits no other headers. -/
theorem Wire.octets_shortest : ∀ w : Wire, w.Admitted .der → w.shortest.octets = w.octets
  | .primitive h s, ha => (Header.frame_of_admits_der ha.1 false).symm
  | .constructed h ws, ha => by
    rw [Wire.shortest, Encoding.octets, Wire.joined_shortests ws ha.2, Wire.octets]
    exact (Header.frame_of_admits_der ha.1 true).symm

theorem Wire.joined_shortests : ∀ ws : List Wire, Wire.AllAdmitted .der ws →
    Encoding.joined (Wire.shortests ws) = Wire.joined ws
  | [], _ => rfl
  | w :: ws, ha => by
    rw [Wire.shortests, Encoding.joined, Wire.octets_shortest w ha.1,
      Wire.joined_shortests ws ha.2, Wire.joined]

end

theorem Wire.length_contents_shortest_le {w : Wire} (ha : w.Admitted .der) :
    w.shortest.contents.length ≤ w.longest := by
  cases w with
  | primitive h s => exact Nat.le_refl _
  | constructed h ws =>
    rw [Wire.shortest, Encoding.contents, Wire.joined_shortests ws ha.2, Wire.longest,
      if_neg (Header.length_ne_of_admits_der ha.1)]
    exact Nat.le_max_left _ _

namespace Value

variable {options : ReaderOptions} {s : Octets} {v w : Value} {vs : List Value}

theorem encoding_of_ofContents {tag : Tag} {hn : tag ≠ .endOfContents} {c : Contents}
    (h : ofContents tag hn .der c = .ok v) : v.encoding .dl = c.encoding .dl tag := by
  rcases ofContents_cases h with ⟨-, rfl⟩ | ⟨n, rfl, rfl⟩ | ⟨u, rfl, hu⟩
  · rfl
  · rfl
  · cases hu with
    | true _ hr =>
      rw [hr rfl]
      rfl
    | bitSegments hr _ _ => cases hr
    | octetSegments hr _ => cases hr
    | stringSegments _ hr _ => cases hr
    | _ => rfl

/-- DL writes what was read under DER unit by unit as it was. -/
theorem encoding_of_denotes {u : Wire} (h : u.Denotes .der v) : v.encoding .dl = u.shortest := by
  refine h.induct ?_ ?_
  · intro h s v _ hv
    exact encoding_of_ofContents hv
  · intro h us vs v _ hs hv
    have hvs : encodings .dl vs = Wire.shortests us := by
      clear hv
      induction hs with
      | nil => rfl
      | cons hu _ ih => rw [encodings, hu, ih, Wire.shortests]
    rw [encoding_of_ofContents hv, Contents.encoding, hvs]
    rfl

theorem exists_taken_shortest (h : ofOctets options s = .ok v) (hr : options.rule = .der) :
    ∃ u : Wire, u.octets = s ∧ u.Taken options options.depthLimit.toNat v ∧
      v.encoding .dl = u.shortest ∧ u.shortest.octets = s := by
  obtain ⟨u, rfl, hu⟩ := ofOctets_eq_ok_iff.1 h
  have hadm : u.Admitted .der := hr ▸ hu.admitted
  exact ⟨u, rfl, hu, encoding_of_denotes (hr ▸ hu.denotes), u.octets_shortest hadm⟩

/-- DER input is kept octet for octet, as the tree of units that it is. -/
theorem octets_dl_of_ofOctets (h : ofOctets options s = .ok v) (hr : options.rule = .der) :
    v.octets .dl = s ∧
      ∃ u : Wire, u.octets = s ∧ u.Taken options options.depthLimit.toNat v ∧
        v.encoding .dl = u.shortest := by
  obtain ⟨u, hu, ht, he, hs⟩ := exists_taken_shortest h hr
  refine ⟨?_, u, hu, ht, he⟩
  rw [octets, he, hs]

theorem octets_dl_of_ofOctets_unsorted :
    ∃ v, ofOctets (.ofRule .der)
        [0xBF, 31, 13, 0x31, 11, 0x04, 2, 7, 8, 0x03, 2, 4, 0xF0, 0x01, 1, 0xFF] = .ok v ∧
      v.octets .dl = [0xBF, 31, 13, 0x31, 11, 0x04, 2, 7, 8, 0x03, 2, 4, 0xF0, 0x01, 1, 0xFF] := by
  let v : Value := .tagged (.raw (.context 31) .der (.constructed [.set [.octetString [7, 8],
    .bitString ⟨4, [0xF0], by decide, by decide⟩, .boolean true]]))
  have h : ofOctets (.ofRule .der)
      [0xBF, 31, 13, 0x31, 11, 0x04, 2, 7, 8, 0x03, 2, 4, 0xF0, 0x01, 1, 0xFF] = .ok v := by cbv
  exact ⟨v, h, (octets_dl_of_ofOctets h rfl).1⟩

end Value

mutual

/-- The elements of every SET, at any depth, stand in the order of their DER octets. -/
def Value.Ordered : Value → Prop
  | .sequence vs => Value.AllOrdered vs
  | .set vs => Value.AllOrdered vs ∧ vs.Pairwise fun v w => Octets.le v.der w.der
  | .tagged t => t.Ordered
  | .unknown _ c => c.Ordered
  | _ => True

def Tagged.Ordered : Tagged → Prop
  | .explicit _ base | .implicit _ base => base.Ordered
  | .raw _ _ c => c.Ordered

def Contents.Ordered : Contents → Prop
  | .primitive _ => True
  | .constructed vs => Value.AllOrdered vs

def Value.AllOrdered : List Value → Prop
  | [] => True
  | v :: vs => v.Ordered ∧ Value.AllOrdered vs

end

namespace Value

variable {rule : Rule} {v w : Value} {vs : List Value}

theorem allOrdered_iff : AllOrdered vs ↔ ∀ v ∈ vs, v.Ordered := by
  induction vs with
  | nil => simp [AllOrdered]
  | cons v vs ih => simp [AllOrdered, ih]

theorem joined_encodings (rule : Rule) (vs : List Value) :
    Encoding.joined (encodings rule vs) = vs.flatMap (octets rule) := by
  rw [encodings_eq_map, Encoding.joined_eq_flatMap, List.flatMap_map]
  rfl

theorem octets_dl_eq_frame (v : Value) :
    v.octets .dl = Encoding.frame v.identifier false (v.encoding .dl).contents := by
  rw [octets, Encoding.octets_eq_frame, identifier_encoding, isOpen_encoding]
  rw [show Rule.indefiniteLengths .dl = false from rfl, Bool.and_false]

theorem below_octets_dl {P : Prop} (h : Below v.derContents (v.encoding .dl).contents ∧
      (v.derContents = (v.encoding .dl).contents → P)) :
    Below v.der (v.octets .dl) ∧ (v.der = v.octets .dl → P) := by
  rw [der_eq_frame, octets_dl_eq_frame]
  exact ⟨Encoding.below_frame _ h.1, fun he => h.2 (Encoding.frame_inj_of_length h.1.1 he)⟩

theorem arranged_of_pairwise (rule : Rule) (h : vs.Pairwise fun v w => Octets.le v.der w.der) :
    arranged rule vs = vs := by
  unfold arranged
  split
  · exact List.mergeSort_of_pairwise h
  · rfl

end Value

/-! ## What DER puts in order -/

mutual

/-- DER does not make the octets of DL greater, and keeps them only if every SET is in order. -/
theorem Value.below_dl : ∀ v : Value, (v.encoding .dl).contents.length < UInt64.size →
    Below v.derContents (v.encoding .dl).contents ∧
      (v.derContents = (v.encoding .dl).contents → v.Ordered)
  | .bitString b, _ => ⟨(Below.refl [_]).append b.below_cleared, fun _ => trivial⟩
  | .sequence vs, hl => by
    rw [Value.encoding, Encoding.contents, Value.joined_encodings] at hl ⊢
    rw [Value.derContents_sequence, Value.Ordered, Value.allOrdered_iff]
    exact Octets.below_flatMap (Value.below_dl_of_mem vs hl)
  | .set vs, hl => by
    have hc : ((Value.set vs).encoding .dl).contents = vs.flatMap (Value.octets .dl) :=
      Value.joined_encodings .dl vs
    rw [hc] at hl ⊢
    have h := Value.below_dl_of_mem vs hl
    rw [Value.derContents_set, Value.Ordered, Value.allOrdered_iff]
    refine Value.below_flatten_sortedDer ?_ h
    rwa [(Octets.below_flatMap h).1.1]
  | .tagged t, hl => Tagged.below_dl t hl
  | .unknown n c, hl => by
    rw [Value.derContents_unknown]
    exact Contents.below_dl c _ hl
  | .boolean _, _ | .integer _, _ | .octetString _, _ | .null, _ | .oid _, _ | .enumerated _, _
  | .string _, _ => ⟨.refl _, fun _ => trivial⟩

theorem Tagged.below_dl : ∀ t : Tagged, (t.encoding .dl).contents.length < UInt64.size →
    Below t.derContents (t.encoding .dl).contents ∧
      (t.derContents = (t.encoding .dl).contents → t.Ordered)
  | .explicit tag base, hl => by
    have hc : ((Tagged.explicit tag base).encoding .dl).contents = base.octets .dl :=
      List.append_nil _
    rw [hc, Value.octets_dl_eq_frame] at hl
    rw [hc, Tagged.derContents_explicit]
    have hlt := Encoding.length_lt_frame base.identifier false (base.encoding .dl).contents
    exact Value.below_octets_dl (Value.below_dl base (Nat.lt_trans hlt hl))
  | .implicit tag base, hl => by
    rw [Tagged.encoding, Encoding.contents_withTag] at hl ⊢
    rw [Tagged.derContents_implicit]
    exact Value.below_dl base hl
  | .raw tag _ c, hl => by
    rw [Tagged.derContents_raw]
    exact Contents.below_dl c tag hl

theorem Contents.below_dl : ∀ (c : Contents) (tag : Tag),
    (c.encoding .dl tag).contents.length < UInt64.size →
      Below c.derContents (c.encoding .dl tag).contents ∧
        (c.derContents = (c.encoding .dl tag).contents → c.Ordered)
  | .primitive s, _, _ => ⟨.refl s, fun _ => trivial⟩
  | .constructed vs, tag, hl => by
    rw [Contents.encoding, Encoding.contents, Value.joined_encodings] at hl ⊢
    rw [Contents.derContents, Contents.Ordered, Value.allOrdered_iff]
    exact Octets.below_flatMap (Value.below_dl_of_mem vs hl)

theorem Value.below_dl_of_mem : ∀ vs : List Value,
    (vs.flatMap (Value.octets .dl)).length < UInt64.size →
      ∀ v ∈ vs, Below v.der (v.octets .dl) ∧ (v.der = v.octets .dl → v.Ordered)
  | [], _ => List.forall_mem_nil _
  | v :: vs, hl => by
    rw [List.flatMap_cons, List.length_append] at hl
    have hv := Encoding.length_lt_frame v.identifier false (v.encoding .dl).contents
    rw [← Value.octets_dl_eq_frame] at hv
    exact List.forall_mem_cons.2
      ⟨Value.below_octets_dl (Value.below_dl v (Nat.lt_of_le_of_lt (by omega) hl)),
        Value.below_dl_of_mem vs (Nat.lt_of_le_of_lt (by omega) hl)⟩

end

mutual

theorem Value.Received.encoding_der : ∀ {v : Value}, v.Received .der → v.Ordered →
    v.encoding .der = v.encoding .dl
  | .bitString b, h, _ =>
    congrArg (fun s => Encoding.primitive _ (UInt8.ofNat b.unused :: s)) (h rfl)
  | .sequence _, h, ho =>
    congrArg (Encoding.constructed _ false) (Value.AllReceived.encodings_der h ho)
  | .set vs, h, ho => by
    rw [Value.encoding_set, Value.encoding_set, Value.arranged_of_pairwise _ ho.2,
      Value.arranged_of_pairwise _ ho.2, ← Value.encodings_eq_map, ← Value.encodings_eq_map]
    exact congrArg (Encoding.constructed _ false) (Value.AllReceived.encodings_der h ho.1)
  | .tagged (.raw tag _ _), h, ho => Contents.Received.encoding_der h.2.2 ho tag
  | .tagged (.explicit _ _), h, _ | .tagged (.implicit _ _), h, _ => h.elim
  | .unknown _ _, h, ho => Contents.Received.encoding_der h ho _
  | .boolean _, _, _ | .integer _, _, _ | .octetString _, _, _ | .null, _, _ | .oid _, _, _
  | .enumerated _, _, _ | .string _, _, _ => rfl

theorem Contents.Received.encoding_der : ∀ {c : Contents}, c.Received .der → c.Ordered →
    ∀ tag : Tag, c.encoding .der tag = c.encoding .dl tag
  | .primitive _, _, _, _ => rfl
  | .constructed _, h, ho, _ =>
    congrArg (Encoding.constructed _ false) (Value.AllReceived.encodings_der h ho)

theorem Value.AllReceived.encodings_der : ∀ {vs : List Value}, Value.AllReceived .der vs →
    Value.AllOrdered vs → Value.encodings .der vs = Value.encodings .dl vs
  | [], _, _ => rfl
  | _ :: _, h, ho =>
    congrArg₂ List.cons (Value.Received.encoding_der h.1 ho.1)
      (Value.AllReceived.encodings_der h.2 ho.2)

end

namespace Value

variable {options : ReaderOptions} {s : Octets} {v : Value}

theorem length_contents_dl_lt (h : ofOctets options s = .ok v) (hr : options.rule = .der) :
    (v.encoding .dl).contents.length < UInt64.size := by
  obtain ⟨u, -, hu, he, -⟩ := exists_taken_shortest h hr
  rw [he]
  have hle := Wire.length_contents_shortest_le (hr ▸ hu.admitted)
  exact Nat.lt_of_le_of_lt (Nat.le_trans hle hu.longest_le) options.lengthLimit.toNat_lt

theorem der_eq_of_ordered (h : ofOctets options s = .ok v) (hr : options.rule = .der)
    (ho : v.Ordered) : v.der = s := by
  have hv : v.Received .der := hr ▸ received_of_ofOctets h
  obtain ⟨u, -, -, he, hs⟩ := exists_taken_shortest h hr
  rw [der, octets, hv.encoding_der ho, he, hs]

/-- DER writes what was read under DER as octets that are not greater, and as the same octets
exactly if every SET was in order. Values that were in order are equal only if they were read from
the same octets. -/
theorem der_eq_iff_ordered (h : ofOctets options s = .ok v) (hr : options.rule = .der) :
    Below v.der s ∧ (v.der = s ↔ v.Ordered) ∧
      ∀ (o : ReaderOptions) (t : Octets) (w : Value), ofOctets o t = .ok w → o.rule = .der →
        v.Ordered → w.Ordered → v == w → s = t := by
  obtain ⟨u, -, -, he, hs⟩ := exists_taken_shortest h hr
  have hdl : v.octets .dl = s := by rw [octets, he, hs]
  obtain ⟨hbelow, hord⟩ := below_octets_dl (below_dl v (length_contents_dl_lt h hr))
  rw [hdl] at hbelow hord
  refine ⟨hbelow, ⟨hord, der_eq_of_ordered h hr⟩, ?_⟩
  intro o t w hw ho hv hw' heq
  rw [← der_eq_of_ordered h hr hv, ← der_eq_of_ordered hw ho hw', der_eq_of_beq heq]

def orderedSet : Value :=
  .tagged (.raw (.context 0) .der (.constructed [.set [.boolean true,
    .bitString ⟨4, [0xF0], Nat.le_add_right 4 3, by decide⟩, .octetString [7, 8]]]))

theorem der_eq_orderedSet :
    orderedSet.der = [0xA0, 13, 0x31, 11, 0x01, 1, 0xFF, 0x03, 2, 4, 0xF0, 0x04, 2, 7, 8] := by
  have h : ofOctets (.ofRule .der)
      [0xA0, 13, 0x31, 11, 0x01, 1, 0xFF, 0x03, 2, 4, 0xF0, 0x04, 2, 7, 8] = .ok orderedSet := by
    cbv
  have hp : List.Pairwise (fun v w : Value => Octets.le v.der w.der) [.boolean true,
      .bitString ⟨4, [0xF0], by decide, by decide⟩, .octetString [7, 8]] := by
    refine .cons (List.forall_mem_cons.2 ⟨by cbv, List.forall_mem_singleton.2 (by cbv)⟩) ?_
    exact .cons (List.forall_mem_singleton.2 (by cbv)) (List.pairwise_singleton _ _)
  exact (der_eq_iff_ordered h rfl).2.1.2 ⟨⟨⟨trivial, trivial, trivial, trivial⟩, hp⟩, trivial⟩

/-- The elements of a SET are taken in either order, and make equal values. -/
theorem ofOctets_unordered_set :
    ∃ v w, ofOctets (.ofRule .der) [0x31, 6, 0x02, 1, 2, 0x02, 1, 1] = .ok v ∧
      ofOctets (.ofRule .der) [0x31, 6, 0x02, 1, 1, 0x02, 1, 2] = .ok w ∧
      v == w ∧ v.der = [0x31, 6, 0x02, 1, 1, 0x02, 1, 2] :=
  ⟨.set [.integer (.ofInt 2), .integer (.ofInt 1)], .set [.integer (.ofInt 1), .integer (.ofInt 2)],
    by cbv, by cbv, by cbv, by cbv⟩

end Value

end Tlv
