import Tlv.Certificate.AuthorityKey
import Tlv.Certificate.BasicConstraints
import Tlv.Certificate.PublicKey
import Tlv.Proofs.Copies
import Tlv.Proofs.Extensions
import Tlv.Proofs.FieldParsers

/-! # Parts of certificates

The parts that certificates are made of are written as values and got back through their schemas.
A schema that gets a part back from every copy of its value gets it back from its DER octets as
well as from the value itself. Optional fields are told apart by their types or by their tags.
-/

namespace Tlv

theorem exists_append_of_forall₂ {α β : Type} {r : α → β → Prop} {as : List α} {bs cs : List β}
    (h : List.Forall₂ r as (bs ++ cs)) :
    ∃ us vs, as = us ++ vs ∧ List.Forall₂ r us bs ∧ List.Forall₂ r vs cs :=
  ⟨_, _, (List.take_append_drop bs.length as).symm, List.forall₂_take_append _ _ _ h,
    List.forall₂_drop_append _ _ _ h⟩

theorem list_beq_of_forall₂ {α : Type} [BEq α] {as bs : List α}
    (h : List.Forall₂ (fun a b => a == b) as bs) : as == bs := by
  induction h with
  | nil => rfl
  | cons h _ ih => exact Bool.and_eq_true_iff.2 ⟨h, ih⟩

theorem option_beq_of_rel {α : Type} [BEq α] {r : α → α → Prop} {a b : Option α}
    (h : Option.Rel r a b) (hr : ∀ a b, r a b → a == b) : a == b := by
  cases h with
  | none => rfl
  | some h => exact hr _ _ h

/-! ## Schemas that get back what was written -/

namespace Schema

variable {α : Type}

/-- `a` was read from octets or from a valid value. -/
def Reads (c : Schema α) (a : α) : Prop :=
  (∃ s, c.ofForm (.octets s) = .ok a) ∨ ∃ v : Value, v.Valid ∧ c.ofForm (.value v) = .ok a

/-- A form gives back what is the same as `a`, with the same DER octets. -/
def Returns (c : Schema α) (toValue : α → Value) (same : α → α → Prop) (f : Form α) (a : α) :
    Prop :=
  ∃ b, c.ofForm f = .ok b ∧ same b a ∧ (toValue b).der = (toValue a).der

/-- `a` is got back from its DER octets, and from its value without going through octets. -/
structure RoundTrips (c : Schema α) (toValue : α → Value) (same : α → α → Prop) (a : α) :
    Prop where
  octets : c.Returns toValue same (.octets (toValue a).der) a
  value : c.Returns toValue same (.value (toValue a)) a

/-- Everything is got back from all copies of its value. -/
def Recovers (c : Schema α) (toValue : α → Value) (same : α → α → Prop) : Prop :=
  ∀ a w, w.CopyOf (toValue a) → ∃ b, c.ofValue w = .ok b ∧ same b a ∧ toValue b == toValue a

variable {c : Schema α} {toValue : α → Value} {same : α → α → Prop} {a : α}

theorem Recovers.roundTrips (h : c.Recovers toValue same) (hv : (toValue a).Valid)
    (hw : ((toValue a).wire .der).Within {}) : c.RoundTrips toValue same a where
  octets := by
    obtain ⟨w, hread, hcopy⟩ := Value.exists_copy hv hw
    obtain ⟨b, hb, hsame, hbeq⟩ := h a w hcopy
    exact ⟨b, ofOctets_eq_ok_iff.2 ⟨w, hread, hb⟩, hsame, Value.der_eq_of_beq hbeq⟩
  value := by
    have hcopy : (toValue a).CopyOf (toValue a) :=
      ⟨hv, Value.length_derContents_lt_of_within hw, .inl rfl⟩
    obtain ⟨b, hb, hsame, hbeq⟩ := h a _ hcopy
    exact ⟨b, hb, hsame, Value.der_eq_of_beq hbeq⟩

theorem recovers_of_plain (hp : ∀ a, (toValue a).Plain) (h : ∀ a, c.ofValue (toValue a) = .ok a)
    (hs : ∀ a, same a a) : c.Recovers toValue same := by
  intro a w hw
  rw [hw.eq_of_plain (hp a)]
  exact ⟨a, h a, hs a, Value.beq_refl _⟩

theorem Reads.exists_valid (h : c.Reads a) : ∃ v : Value, v.Valid ∧ c.ofValue v = .ok a := by
  rcases h with ⟨s, hs⟩ | h
  · obtain ⟨v, hv, ha⟩ := ofOctets_eq_ok_iff.1 hs
    exact ⟨v, (Value.received_of_ofOctets hv).valid_settled.1, ha⟩
  · exact h

theorem Reads.of_ensures {typeName : String} {p : FieldParser α} {Q : α → Prop}
    (hp : p.Ensures Value.Valid Q) (h : (ofSequence typeName p.parse).Reads a) : Q a := by
  obtain ⟨v, hv, ha⟩ := h.exists_valid
  obtain ⟨vs, rfl, ha⟩ := ofValue_ofSequence_eq_ok_iff.1 ha
  exact hp.parse (Value.allValid_iff.1 hv) ha

end Schema

namespace Certificate

/-! ## Algorithm identifiers and public keys -/

namespace AlgorithmIdentifier

variable {a : AlgorithmIdentifier}

def Valid (a : AlgorithmIdentifier) : Prop := ∀ v ∈ a.parameters, v.Valid

theorem valid_toValue (h : a.Valid) : a.toValue.Valid := by
  obtain ⟨id, _ | v⟩ := a
  · exact ⟨trivial, trivial⟩
  · exact ⟨trivial, h v rfl, trivial⟩

theorem ensures_valid : fields.Ensures Value.Valid Valid := by
  have hid : (FieldParser.next UniversalSchema.oid.ofValue).Ensures Value.Valid fun _ => True :=
    FieldParser.ensures_next fun _ _ _ _ => trivial
  refine hid.bind fun id _ => (FieldParser.ensures_next? ?_).bind fun ps hps =>
    FieldParser.ensures_pure hps
  intro v w hv hw
  cases hw
  exact hv

theorem Valid.of_reads (h : schema.Reads a) : a.Valid := h.of_ensures ensures_valid

theorem ofValue_sequence (id : Oid) (ps : Option Value) :
    schema.ofValue (.sequence (.oid id :: ps.toList)) = .ok ⟨id, ps⟩ := by
  cases ps <;> rfl

theorem beq_of_parameters (id : Oid) {ps qs : Option Value} (h : ps == qs) :
    (⟨id, ps⟩ : AlgorithmIdentifier) == ⟨id, qs⟩ :=
  Bool.and_eq_true_iff.2 ⟨beq_self_eq_true id, h⟩

theorem recovers : schema.Recovers toValue (fun b a => b == a) := by
  rintro ⟨id, ps⟩ w h
  obtain ⟨ws, rfl, hs⟩ := h.exists_elements
  cases hs with
  | @cons x _ ws _ hid hs =>
    obtain rfl := hid.eq_of_plain (.oid id)
    cases ps with
    | none =>
      cases hs
      exact ⟨_, ofValue_sequence id none, beq_of_parameters id rfl, Value.beq_refl _⟩
    | some v =>
      cases hs with
      | @cons w _ _ _ hw hs =>
        cases hs
        have hbeq := hw.beq
        refine ⟨_, ofValue_sequence id (some w), beq_of_parameters id hbeq, ?_⟩
        exact Value.beq_iff_alike.2 (.sequence (.cons (Value.beq_refl _) (.cons hbeq .nil)))

end AlgorithmIdentifier

namespace SubjectPublicKeyInfo

variable {k : SubjectPublicKeyInfo}

def Valid (k : SubjectPublicKeyInfo) : Prop := k.algorithm.Valid

theorem valid_toValue (h : k.Valid) : k.toValue.Valid :=
  ⟨k.algorithm.valid_toValue h, trivial, trivial⟩

theorem ensures_valid : fields.Ensures Value.Valid Valid := by
  have halgorithm : (FieldParser.next AlgorithmIdentifier.schema.ofValue).Ensures Value.Valid
      AlgorithmIdentifier.Valid :=
    FieldParser.ensures_next fun v _ hv ha => .of_reads (.inr ⟨v, hv, ha⟩)
  have hkey : (FieldParser.next UniversalSchema.bitString.ofValue).Ensures Value.Valid
      fun _ => True := FieldParser.ensures_next fun _ _ _ _ => trivial
  exact halgorithm.bind fun _ ha => hkey.bind fun _ _ => FieldParser.ensures_pure ha

theorem Valid.of_reads (h : schema.Reads k) : k.Valid := h.of_ensures ensures_valid

theorem recovers : schema.Recovers toValue (fun b a => b == a) := by
  rintro ⟨algorithm, key⟩ w h
  obtain ⟨ws, rfl, hs⟩ := h.exists_elements
  cases hs with
  | @cons x _ _ _ hx hs =>
    cases hs with
    | @cons y _ _ _ hy hs =>
      cases hs
      obtain ⟨b, hb, hsame, hbeq⟩ := AlgorithmIdentifier.recovers algorithm x hx
      obtain ⟨key', rfl, hkey⟩ : ∃ key', y = .bitString key' ∧ key' == key := by
        cases Value.alike_of_beq hy.beq with
        | refl => exact ⟨key, rfl, BitString.beq_iff.2 ⟨rfl, rfl⟩⟩
        | bitString hkey => exact ⟨_, rfl, hkey⟩
      refine ⟨⟨b, key'⟩, ?_, Bool.and_eq_true_iff.2 ⟨hsame, hkey⟩, ?_⟩
      · have hbits : UniversalSchema.bitString.ofValue (.bitString key') = .ok key' := rfl
        apply FieldParser.parse_of_yields
        refine (FieldParser.yields_next hb _).bind ((FieldParser.yields_next hbits _).bind ?_)
        exact FieldParser.yields_pure _ []
      · refine Value.beq_iff_alike.2 (.sequence (.cons hbeq (.cons ?_ .nil)))
        exact Value.beq_iff_alike.2 (.bitString hkey)

end SubjectPublicKeyInfo

/-! ## Basic constraints and extensions -/

namespace BasicConstraints

theorem plain_toValue (c : BasicConstraints) : c.toValue.Plain := by
  refine .sequence fun v hv => ?_
  rcases List.mem_append.1 hv with hv | hv
  · obtain ⟨-, hv⟩ := List.mem_ite_nil_right.1 hv
    rw [List.mem_singleton.1 hv]
    exact .boolean true
  · obtain ⟨n, -, rfl⟩ := List.mem_map.1 hv
    exact .integer n

theorem ofValue_toValue (c : BasicConstraints) : schema.ofValue c.toValue = .ok c := by
  obtain ⟨ca, pathLength, h⟩ := c
  have hfields : fields.parse ((if ca then [.boolean true] else []) ++
      pathLength.toList.map Value.integer) = .ok (ca, pathLength) := by
    cases ca <;> cases pathLength <;> rfl
  change parse _ = _
  rw [parse, hfields]
  exact dif_pos h

theorem recovers : schema.Recovers toValue (fun b a => b = a) :=
  Schema.recovers_of_plain plain_toValue ofValue_toValue fun _ => rfl

end BasicConstraints

namespace Extension

theorem plain_toValue (e : Extension) : e.toValue.Plain := by
  refine .sequence fun v hv => ?_
  rcases List.mem_append.1 hv with hv | hv
  · rcases List.mem_cons.1 hv with rfl | hv
    · exact .oid e.id
    · obtain ⟨-, hv⟩ := List.mem_ite_nil_right.1 hv
      rw [List.mem_singleton.1 hv]
      exact .boolean true
  · rw [List.mem_singleton.1 hv]
    exact .octetString e.value

theorem ofValue_toValue (e : Extension) : schema.ofValue e.toValue = .ok e := by
  obtain ⟨id, critical, value⟩ := e
  cases critical <;> rfl

theorem recovers : schema.Recovers toValue (fun b a => b = a) :=
  Schema.recovers_of_plain plain_toValue ofValue_toValue fun _ => rfl

end Extension

namespace Extensions

theorem plain_toValue (xs : Extensions) : xs.toValue.Plain :=
  .sequence (List.forall_mem_map.2 fun e _ => e.plain_toValue)

theorem ofValue_toValue (xs : Extensions) : schema.ofValue xs.toValue = .ok xs := by
  refine ofValue_eq_ok_iff.2 ⟨_, rfl, List.forall₂_map_left_iff.2 ?_⟩
  exact List.forall₂_same.2 fun e _ => e.ofValue_toValue

theorem recovers :
    schema.Recovers toValue (fun ys xs => ys.ids = xs.ids ∧ ys.sameItems xs = true) :=
  Schema.recovers_of_plain plain_toValue ofValue_toValue fun _ => ⟨rfl, sameItems_iff.2 (.refl _)⟩

end Extensions

/-! ## Authority key identifiers -/

/-- The schema reads what `inj` makes values of the type of, also from equal values. -/
structure Views {α : Type} (c : UniversalSchema α) (u : UniversalType) (inj : α → Value) :
    Prop where
  number_eq : c.number = u.number
  tag_eq : ∀ x, (inj x).tag = u.tag
  exists_of_beq : ∀ v x, v == inj x → ∃ y, c.ofValue v = .ok y ∧ v = inj y

theorem views_octetString : Views .octetString .octetString .octetString where
  number_eq := rfl
  tag_eq _ := rfl
  exists_of_beq v x h := by
    cases Value.alike_of_beq h
    exact ⟨x, rfl, rfl⟩

theorem views_integer : Views .integer .integer .integer where
  number_eq := rfl
  tag_eq _ := rfl
  exists_of_beq v x h := by
    cases Value.alike_of_beq h
    exact ⟨x, rfl, rfl⟩

theorem views_sequence : Views .sequence .sequence .sequence where
  number_eq := rfl
  tag_eq _ := rfl
  exists_of_beq v vs h := by
    cases Value.alike_of_beq h with
    | refl => exact ⟨vs, rfl, rfl⟩
    | sequence => exact ⟨_, rfl, rfl⟩

namespace AuthorityKeyIdentifier

variable {a : AuthorityKeyIdentifier}

def Valid (a : AuthorityKeyIdentifier) : Prop := ∀ vs ∈ a.issuer, Value.AllValid vs

section

variable {α : Type} {number : UInt32} {c : UniversalSchema α} {u : UniversalType} {inj : α → Value}
  {o r : Option α} {us rest : List Value} {v w : Value}

theorem valid_of_mem_elements (hv : v ∈ o.toList.map fun x => element number (inj x))
    (h : ∀ x ∈ o, (inj x).Valid) : v.Valid := by
  obtain ⟨x, hx, rfl⟩ := List.mem_map.1 hv
  exact ⟨by simp [Tag.context], h x (Option.mem_toList.1 hx)⟩

theorem ensures_field {P : α → Prop}
    (h : ∀ t x, t.Valid → c.ofTagged false t = .ok x → P x) :
    (field number c).Ensures Value.Valid fun r => ∀ x ∈ r, P x :=
  FieldParser.ensures_tagged? h

theorem element_beq (number : UInt32) (h : v == w) : element number v == element number w := by
  refine Tagged.beq_iff.2 ⟨congrArg (Identifier.mk _) ?_, ?_⟩
  · exact congrArg Identifier.constructed (Value.identifier_eq_of_beq h)
  · rw [Tagged.derContents_implicit, Tagged.derContents_implicit, Value.derContents_eq_of_beq h]

theorem forall₂_element_beq (number : UInt32) (h : Option.Rel (fun y x => inj y == inj x) r o) :
    List.Forall₂ (fun v w => v == w) (r.toList.map fun x => element number (inj x))
      (o.toList.map fun x => element number (inj x)) := by
  cases h with
  | none => exact .nil
  | some h => exact .cons (element_beq number h) .nil

variable (hus : List.Forall₂ (fun v x => v.CopyOf (element number (inj x))) us o.toList)

include hus

theorem tag_ne_of_copies {m : UInt32} (hne : number ≠ m) : ∀ v ∈ us, v.tag ≠ .context m := by
  have htags : List.Forall₂ (fun v _ => v.tag ≠ .context m) us o.toList := by
    refine hus.imp fun v x h => ?_
    rw [Value.tag_eq_of_beq h.beq]
    exact fun ht => hne (congrArg Tag.number ht)
  exact forall_mem_of_forall₂_left htags

/-- A field that is present is read from a copy of its element; one that is absent is not found
among elements with other tags. -/
theorem exists_yields_field (hc : Views c u inj) (hrest : ∀ v ∈ rest, v.tag ≠ .context number) :
    ∃ r, (field number c).Yields (us ++ rest) r rest ∧
      Option.Rel (fun y x => inj y == inj x) r o := by
  cases o with
  | none =>
    cases hus
    exact ⟨none, FieldParser.yields_tagged?_none hrest, .none⟩
  | some x =>
    cases hus with
    | @cons v _ _ _ hv hs =>
      cases hs
      obtain ⟨t, w, rfl, ht, hw, hbeq⟩ := hv.exists_resolve (hc.tag_eq x)
      obtain ⟨y, hy, rfl⟩ := hc.exists_of_beq w x hbeq
      have hbuild : c.ofTagged false t = .ok y := by
        rw [UniversalSchema.ofTagged, hc.number_eq, hw]
        exact hy
      exact ⟨some y, FieldParser.yields_tagged?_some ht hbuild rest, .some hbeq⟩

end

theorem ensures_valid : fields.Ensures Value.Valid Valid := by
  have hkey : (field 0 .octetString).Ensures Value.Valid fun r => ∀ x ∈ r, True :=
    ensures_field fun _ _ _ _ => trivial
  have hissuer : (field 1 .sequence).Ensures Value.Valid fun r => ∀ vs ∈ r, Value.AllValid vs := by
    refine ensures_field fun t vs ht hvs => ?_
    exact ht.of_resolve (UniversalSchema.takes_sequence.ofTagged_iff.1 hvs)
  have hserial : (field 2 .integer).Ensures Value.Valid fun r => ∀ x ∈ r, True :=
    ensures_field fun _ _ _ _ => trivial
  exact hkey.bind fun _ _ => hissuer.bind fun _ hi => hserial.bind fun _ _ =>
    FieldParser.ensures_pure hi

theorem Valid.of_reads (h : schema.Reads a) : a.Valid := h.of_ensures ensures_valid

theorem valid_toValue (h : a.Valid) : a.toValue.Valid := by
  refine Value.allValid_iff.2 fun v hv => ?_
  rcases List.mem_append.1 hv with hv | hv
  · rcases List.mem_append.1 hv with hv | hv
    · exact valid_of_mem_elements hv fun _ _ => trivial
    · exact valid_of_mem_elements hv h
  · exact valid_of_mem_elements hv fun _ _ => trivial

theorem beq_of_rel {b : AuthorityKeyIdentifier}
    (hk : Option.Rel (fun y x => Value.octetString y == .octetString x) b.keyIdentifier
      a.keyIdentifier)
    (hi : Option.Rel (fun y x => Value.sequence y == .sequence x) b.issuer a.issuer)
    (hs : Option.Rel (fun y x => Value.integer y == .integer x) b.serial a.serial) : b == a := by
  have hk : b.keyIdentifier == a.keyIdentifier := option_beq_of_rel hk fun _ _ h => h
  have hi : b.issuer == a.issuer :=
    option_beq_of_rel hi fun _ _ h => list_beq_of_forall₂ (Value.beqAll_iff.1 h)
  have hs : b.serial == a.serial := option_beq_of_rel hs fun _ _ h => h
  exact Bool.and_eq_true_iff.2 ⟨hk, Bool.and_eq_true_iff.2 ⟨hi, hs⟩⟩

theorem recovers : schema.Recovers toValue (fun b a => b == a) := by
  rintro ⟨k, i, s⟩ w h
  obtain ⟨ws, rfl, hws⟩ := h.exists_elements
  obtain ⟨ws, ss, rfl, hws, hss⟩ := exists_append_of_forall₂ hws
  obtain ⟨ks, is, rfl, hks, his⟩ := exists_append_of_forall₂ hws
  rw [List.forall₂_map_right_iff] at hks his hss
  have hrest : ∀ v ∈ is ++ (ss ++ []), v.tag ≠ .context 0 := by
    simp only [List.append_nil, List.forall_mem_append]
    exact ⟨tag_ne_of_copies his (by decide), tag_ne_of_copies hss (by decide)⟩
  have hrest' : ∀ v ∈ ss ++ [], v.tag ≠ .context 1 := by
    rw [List.append_nil]
    exact tag_ne_of_copies hss (by decide)
  obtain ⟨k', hk, hkrel⟩ := exists_yields_field hks views_octetString hrest
  obtain ⟨i', hi, hirel⟩ := exists_yields_field his views_sequence hrest'
  obtain ⟨s', hs, hsrel⟩ := exists_yields_field hss views_integer (List.forall_mem_nil _)
  refine ⟨⟨k', i', s'⟩, ?_, beq_of_rel hkrel hirel hsrel, ?_⟩
  · have hfields : fields.Yields (ks ++ (is ++ (ss ++ []))) ⟨k', i', s'⟩ [] :=
      hk.bind (hi.bind (hs.bind (FieldParser.yields_pure _ [])))
    rw [List.append_nil, ← List.append_assoc] at hfields
    exact FieldParser.parse_of_yields hfields
  · have hk := forall₂_element_beq 0 hkrel
    have hi := forall₂_element_beq 1 hirel
    have hs := forall₂_element_beq 2 hsrel
    exact Value.beq_iff_alike.2 (.sequence (List.rel_append (List.rel_append hk hi) hs))

end AuthorityKeyIdentifier

/-! ## All parts -/

/-- Every part of a certificate, put together from valid values or read from anywhere, is got back
from its DER octets if these are within the default limits, and from its value without octets. What
comes back is equal to it and has the same DER octets. Extensions come back as the same block, with
the same identifiers in the same order. -/
theorem parts_round_trip :
    (∀ a : AlgorithmIdentifier, a.Valid ∨ AlgorithmIdentifier.schema.Reads a →
      (a.toValue.wire .der).Within {} →
      AlgorithmIdentifier.schema.RoundTrips AlgorithmIdentifier.toValue (fun b a => b == a) a) ∧
    (∀ k : SubjectPublicKeyInfo, k.Valid ∨ SubjectPublicKeyInfo.schema.Reads k →
      (k.toValue.wire .der).Within {} →
      SubjectPublicKeyInfo.schema.RoundTrips SubjectPublicKeyInfo.toValue (fun b a => b == a) k) ∧
    (∀ c : BasicConstraints, (c.toValue.wire .der).Within {} →
      BasicConstraints.schema.RoundTrips BasicConstraints.toValue (fun b a => b = a) c) ∧
    (∀ a : AuthorityKeyIdentifier, a.Valid ∨ AuthorityKeyIdentifier.schema.Reads a →
      (a.toValue.wire .der).Within {} →
      AuthorityKeyIdentifier.schema.RoundTrips AuthorityKeyIdentifier.toValue (fun b a => b == a)
        a) ∧
    (∀ e : Extension, (e.toValue.wire .der).Within {} →
      Extension.schema.RoundTrips Extension.toValue (fun b a => b = a) e) ∧
    ∀ xs : Extensions, (xs.toValue.wire .der).Within {} →
      Extensions.schema.RoundTrips Extensions.toValue
        (fun ys xs => ys.ids = xs.ids ∧ ys.sameItems xs = true) xs := by
  refine ⟨?_, ?_, ?_, ?_, ?_, ?_⟩
  · intro a h hw
    have ha : a.Valid := h.elim id .of_reads
    exact AlgorithmIdentifier.recovers.roundTrips (AlgorithmIdentifier.valid_toValue ha) hw
  · intro k h hw
    have hk : k.Valid := h.elim id .of_reads
    exact SubjectPublicKeyInfo.recovers.roundTrips (SubjectPublicKeyInfo.valid_toValue hk) hw
  · intro c hw
    exact BasicConstraints.recovers.roundTrips c.plain_toValue.valid hw
  · intro a h hw
    have ha : a.Valid := h.elim id .of_reads
    exact AuthorityKeyIdentifier.recovers.roundTrips (AuthorityKeyIdentifier.valid_toValue ha) hw
  · intro e hw
    exact Extension.recovers.roundTrips e.plain_toValue.valid hw
  · intro xs hw
    exact Extensions.recovers.roundTrips xs.plain_toValue.valid hw

def rsaWithHiddenSet : AlgorithmIdentifier := ⟨Identifiers.rsaEncryption, some Value.hiddenSet⟩

def issuerKey : AuthorityKeyIdentifier :=
  ⟨some [1, 2, 3, 4], some [.tagged (.raw (.context 2) .ber (.primitive [0x61, 0x62, 0x63]))],
    some (.ofInt 5)⟩

theorem parts_round_trip_issuerKey :
    AlgorithmIdentifier.schema.RoundTrips AlgorithmIdentifier.toValue (fun b a => b == a)
      rsaWithHiddenSet ∧
    SubjectPublicKeyInfo.schema.RoundTrips SubjectPublicKeyInfo.toValue (fun b a => b == a)
      ⟨rsaWithHiddenSet, ⟨4, [0xFF], by decide, by decide⟩⟩ ∧
    BasicConstraints.schema.RoundTrips BasicConstraints.toValue (fun b a => b = a)
      (.authority (some 3)) ∧
    AuthorityKeyIdentifier.schema.RoundTrips AuthorityKeyIdentifier.toValue (fun b a => b == a)
      issuerKey ∧
    Extension.schema.RoundTrips Extension.toValue (fun b a => b = a)
      ⟨Identifiers.keyUsage, true, [3, 2, 1, 6]⟩ ∧
    Extensions.schema.RoundTrips Extensions.toValue
      (fun ys xs => ys.ids = xs.ids ∧ ys.sameItems xs = true)
      ⟨Extensions.usageAndConstraints, by decide⟩ := by
  obtain ⟨halgorithm, hkey, hbasic, hauthority, hextension, hextensions⟩ := parts_round_trip
  have hvalid : rsaWithHiddenSet.Valid := by
    intro v hv
    cases hv
    exact Value.valid_hiddenSet
  have hread : AuthorityKeyIdentifier.schema.Reads issuerKey :=
    .inl ⟨[0x30, 16, 0x80, 4, 1, 2, 3, 4, 0xA1, 5, 0x82, 3, 0x61, 0x62, 0x63, 0x82, 1, 5], by with_unfolding_all rfl⟩
  exact ⟨halgorithm _ (.inl hvalid) ⟨by cbv, by cbv⟩, hkey _ (.inl hvalid) ⟨by cbv, by cbv⟩,
    hbasic _ ⟨by cbv, by cbv⟩, hauthority _ (.inr hread) ⟨by cbv, by cbv⟩,
    hextension _ ⟨by cbv, by cbv⟩, hextensions _ ⟨by cbv, by cbv⟩⟩

end Certificate

end Tlv
