import Tlv.Proofs.EqualObjects
import Tlv.Proofs.ImplicitTag
import Tlv.Proofs.RuleOrder

/-! # Copies of values

The DER octets of a value are read under BER as an equal value, but as another one: below a tag
that a program put on there are now contents as they were read. A declaration gets from either the
same value.
-/

namespace Tlv

theorem Wire.Holds.received {rule : Rule} {w : Wire} {c : Contents} (h : w.Holds rule c) :
    c.Received rule := by
  cases h with
  | primitive => trivial
  | constructed hs =>
    have hreceived := hs.imp fun _ _ hd => Value.received_of_denotes hd
    exact Value.allReceived_iff.2 (forall_mem_of_forall₂_right hreceived)

namespace Value

variable {v w : Value} {vs : List Value} {u : UniversalType} {tag : Tag}

/-! ## Values without tags -/

/-- Values that no other value is equal to. -/
inductive Plain : Value → Prop where
  | boolean (b : Bool) : Plain (.boolean b)
  | integer (n : Integer) : Plain (.integer n)
  | octetString (s : Octets) : Plain (.octetString s)
  | oid (id : Oid) : Plain (.oid id)
  | sequence {vs : List Value} (h : ∀ v ∈ vs, Plain v) : Plain (.sequence vs)

theorem Plain.valid (h : v.Plain) : v.Valid := by
  induction h with
  | sequence _ ih => exact allValid_iff.2 ih
  | _ => trivial

theorem Plain.eq_of_beq (h : v.Plain) (hw : w == v) : w = v := by
  induction h generalizing w with
  | sequence _ ih =>
    cases alike_of_beq hw with
    | refl => rfl
    | sequence hs =>
      have heq := forall₂_imp_of_mem hs fun _ _ v hv h => ih v hv h
      rw [List.forall₂_eq_eq_eq] at heq
      rw [heq]
  | _ =>
    cases alike_of_beq hw
    rfl

/-! ## What is read for what was written -/

/-- `w` is the value `v` itself, or an equal one that was received under BER. -/
structure CopyOf (w v : Value) : Prop where
  valid : v.Valid
  length_lt : v.derContents.length < UInt64.size
  copied : w = v ∨ w.Received .ber ∧ w == v

theorem CopyOf.beq (h : w.CopyOf v) : w == v := by
  rcases h.copied with rfl | ⟨-, h⟩
  · exact beq_refl w
  · exact h

theorem CopyOf.eq_of_plain (h : w.CopyOf v) (hv : v.Plain) : w = v :=
  hv.eq_of_beq h.beq

theorem length_derContents_lt_of_within {options : ReaderOptions}
    (h : (v.wire .der).Within options) : v.derContents.length < UInt64.size :=
  Nat.lt_of_le_of_lt (Nat.le_trans v.length_derContents_le_longest h.2) options.lengthLimit.toNat_lt

/-- The DER octets of a value are read under BER as a copy of it. -/
theorem exists_copy (hv : v.Valid) (hw : (v.wire .der).Within {}) :
    ∃ w, ofBer v.der = .ok w ∧ w.CopyOf v := by
  have hder : ofOctets ⟨.der, 64, 16777216⟩ v.der = .ok (v.reread .der) :=
    ofOctets_octets hv rfl hw
  obtain ⟨x, hx, hxv⟩ := exists_ofOctets_lax .der_dl hder
  obtain ⟨w, hw', hwx⟩ := exists_ofOctets_lax .dl_ber hx
  refine ⟨w, hw', hv, length_derContents_lt_of_within hw, .inr ⟨received_of_ofOctets hw', ?_⟩⟩
  exact beq_trans hwx (beq_trans hxv (reread_der_beq v))

theorem CopyOf.exists_elements (h : w.CopyOf (.sequence vs)) :
    ∃ ws, w = .sequence ws ∧ List.Forall₂ CopyOf ws vs := by
  have hv : ∀ v ∈ vs, v.Valid := allValid_iff.1 h.valid
  have hl : ∀ v ∈ vs, v.derContents.length < UInt64.size := by
    have hlen := h.length_lt
    rw [derContents_sequence] at hlen
    intro v hmem
    exact Nat.lt_trans v.length_derContents_lt (length_der_lt hlen v hmem)
  have hself : List.Forall₂ CopyOf vs vs :=
    List.forall₂_same.2 fun v hmem => ⟨hv v hmem, hl v hmem, .inl rfl⟩
  rcases h.copied with rfl | ⟨hr, hbeq⟩
  · exact ⟨vs, rfl, hself⟩
  · cases alike_of_beq hbeq with
    | refl => exact ⟨vs, rfl, hself⟩
    | @sequence ws _ hs =>
      refine ⟨ws, rfl, forall₂_imp_of_mem hs fun w hw v hmem hwv => ?_⟩
      exact ⟨hv v hmem, hl v hmem, .inr ⟨allReceived_iff.1 hr w hw, hwv⟩⟩

/-! ## Implicit tags -/

theorem exists_ofContents_held (hv : v.Valid) (ht : v.tag = u.tag) :
    ∃ w, u.ofContents .ber (v.held .der) = .ok w ∧ w == v := by
  have hder : ofContents u.tag u.tag_ne .der (v.held .der) = .ok (v.reread .der) := by
    simpa only [ht] using ofContents_held hv
  have hlax {strict lax : Rule} (hs : strict.Stricter lax) {c : Contents} {x : Value}
      (h : ofContents u.tag u.tag_ne strict c = .ok x) :
      ∃ w, ofContents u.tag u.tag_ne lax c = .ok w ∧ w == x := by
    cases c with
    | primitive s => exact exists_ofContents_primitive_lax hs h
    | constructed vs =>
      exact exists_ofContents_constructed_lax hs (List.forall₂_same.2 fun v _ => beq_refl v) h
  obtain ⟨x, hx, hxv⟩ := hlax .der_dl hder
  obtain ⟨w, hw, hwx⟩ := hlax .dl_ber hx
  rw [ofContents_universal] at hw
  exact ⟨w, hw, beq_trans hwx (beq_trans hxv (reread_der_beq v))⟩

/-- Contents that were read, if their DER form is that of a value, are the value to its type. -/
theorem exists_resolve_raw {c : Contents} (hc : c.Received .ber) (hv : v.Valid)
    (hk : c.isConstructed = v.identifier.constructed) (he : c.derContents = v.derContents)
    (hl : v.derContents.length < UInt64.size) (ht : v.tag = u.tag) (tag : Tag) :
    ∃ x, (Tagged.raw tag .ber c).resolve false u.number = .ok x ∧ x == v := by
  have hheld : c.Alike (v.held .der) := by
    apply Contents.alike_of_derContents_eq hc.valid_settled.1
      (holds_held v hv).received.valid_settled.1
    · exact hk.trans (v.isConstructed_held .der).symm
    · rw [he, derContents_held v fun hn => absurd rfl hn]
    · rw [he]
      exact hl
  obtain ⟨y, hy, hyv⟩ := exists_ofContents_held hv ht
  have hcorr := hheld.ofContents u .ber
  rw [hy] at hcorr
  rw [resolve_raw]
  generalize u.ofContents .ber c = r at hcorr
  cases hcorr with
  | ok hxy => exact ⟨_, rfl, beq_trans hxy hyv⟩

theorem CopyOf.tagged_cases {t : Tagged} (h : w.CopyOf (.tagged t)) :
    w = .tagged t ∨ ∃ c : Contents, w = .tagged (.raw t.tag .ber c) ∧ c.Received .ber ∧
      c.isConstructed = t.isConstructed ∧ c.derContents = t.derContents := by
  rcases h.copied with hw | ⟨hr, hbeq⟩
  · exact .inl hw
  · cases alike_of_beq hbeq with
    | refl => exact .inl rfl
    | @tagged x _ hi hc =>
      cases x with
      | raw tag r c =>
        obtain ⟨-, rfl, hreceived⟩ := hr
        obtain ⟨rfl, hk⟩ := Identifier.mk.inj hi
        rw [Tagged.derContents_raw] at hc
        exact .inr ⟨c, rfl, hreceived, hk, hc⟩
      | _ => exact hr.elim

theorem CopyOf.exists_resolve (h : w.CopyOf (.tagged (.implicit tag v))) (ht : v.tag = u.tag) :
    ∃ t x, w = .tagged t ∧ t.tag = tag ∧ t.resolve false u.number = .ok x ∧ x == v := by
  rcases h.tagged_cases with rfl | ⟨c, rfl, hc, hk, he⟩
  · refine ⟨_, v, rfl, rfl, ?_, beq_refl v⟩
    rw [Tagged.resolve, if_neg Bool.false_ne_true, Tagged.resolveImplicit_eq,
      u.ofNumber?_number]
    exact if_pos ht
  · have hl := h.length_lt
    rw [derContents_tagged, Tagged.derContents_implicit] at hl
    rw [Tagged.derContents_implicit] at he
    obtain ⟨x, hx, hbeq⟩ := exists_resolve_raw hc h.valid.2 hk he hl ht tag
    exact ⟨_, x, rfl, rfl, hx, hbeq⟩

end Value

/-! ## Valid bases -/

theorem UniversalType.valid_of_ofContents {u : UniversalType} {rule : Rule} {c : Contents}
    {v : Value} (hc : c.Valid) (h : u.ofContents rule c = .ok v) : v.Valid := by
  have hgives : u.Gives rule c v := by
    cases c with
    | primitive s => exact gives_of_ofPrimitive h
    | constructed vs => exact gives_of_ofElements h
  cases hgives with
  | sequence | set => exact hc
  | _ => trivial

theorem Tagged.Valid.of_resolve {t : Tagged} {u : UniversalType} {v : Value} (ht : t.Valid)
    (h : t.resolve false u.number = .ok v) : v.Valid := by
  rw [resolve, if_neg Bool.false_ne_true, resolveImplicit_eq, u.ofNumber?_number] at h
  cases t with
  | raw tag rule c => exact u.valid_of_ofContents ht.2 (except_mapError_eq_ok_iff.1 h)
  | explicit tag base =>
    have hc : (Contents.constructed [base]).Valid := ⟨ht.2, trivial⟩
    exact u.valid_of_ofContents hc (except_mapError_eq_ok_iff.1 h)
  | implicit tag base =>
    obtain ⟨rfl, -⟩ := Value.expectUniversal_eq_ok_iff.1 h
    exact ht.2

end Tlv
