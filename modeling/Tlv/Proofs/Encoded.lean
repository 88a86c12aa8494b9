import Tlv.Proofs.Wire

/-! # Encodings as units

The encoding of a value is a unit in the shortest form, except that constructed units are left
open under BER. It has the tag of the value. A value is valid if its tagged objects have tags of
other classes than UNIVERSAL; then every header of its encoding is one that the rule admits.
-/

namespace Tlv

namespace Encoding

def isOpen : Encoding → Bool
  | primitive _ _ => false
  | constructed _ indefinite _ => indefinite

theorem octets_eq_frame (e : Encoding) : e.octets = frame e.identifier e.isOpen e.contents := by
  cases e <;> rfl

@[simp] theorem identifier_withTag (e : Encoding) (tag : Tag) :
    (e.withTag tag).identifier = ⟨tag, e.identifier.constructed⟩ := by
  cases e <;> rfl

@[simp] theorem isOpen_withTag (e : Encoding) (tag : Tag) : (e.withTag tag).isOpen = e.isOpen := by
  cases e <;> rfl

@[simp] theorem contents_withTag (e : Encoding) (tag : Tag) :
    (e.withTag tag).contents = e.contents := by
  cases e <;> rfl

theorem joined_eq_flatMap (es : List Encoding) : joined es = es.flatMap octets := by
  induction es with
  | nil => rfl
  | cons e es ih => rw [joined, ih, List.flatMap_cons]

mutual

def wire : Encoding → Wire
  | primitive tag s => .primitive (.shortest tag false s.length) s
  | constructed tag indefinite es =>
    .constructed (.shortest tag indefinite (joined es).length) (wires es)

def wires : List Encoding → List Wire
  | [] => []
  | e :: es => e.wire :: wires es

end

theorem wires_eq_map (es : List Encoding) : wires es = es.map wire := by
  induction es with
  | nil => rfl
  | cons e es ih => rw [wires, ih, List.map_cons]

mutual

theorem octets_wire : ∀ e : Encoding, e.wire.octets = e.octets
  | primitive tag s => by rw [wire, Wire.octets, Header.frame_shortest, octets]
  | constructed tag indefinite es => by
    rw [wire, Wire.octets, joined_wires es, Header.frame_shortest, octets]

theorem joined_wires : ∀ es : List Encoding, Wire.joined (wires es) = joined es
  | [] => rfl
  | e :: es => by rw [wires, Wire.joined, octets_wire e, joined_wires es, joined]

end

theorem tag_wire (e : Encoding) : e.wire.header.tag = e.identifier.tag := by
  cases e <;> rfl

theorem holds_withTag {rule : Rule} {e : Encoding} {c : Contents} (tag : Tag)
    (h : e.wire.Holds rule c) : (e.withTag tag).wire.Holds rule c := by
  cases e with
  | primitive _ s =>
    cases h
    exact .primitive
  | constructed _ indefinite es =>
    cases h with
    | constructed hs => exact .constructed hs

mutual

/-- No unit bears the tag of the end-of-contents marker, and none is left open that the rule wants
closed. -/
def Proper (rule : Rule) : Encoding → Prop
  | primitive tag _ => tag ≠ .endOfContents
  | constructed tag indefinite es =>
    tag ≠ .endOfContents ∧ (indefinite = true → rule.indefiniteLengths = true) ∧ AllProper rule es

def AllProper (rule : Rule) : List Encoding → Prop
  | [] => True
  | e :: es => e.Proper rule ∧ AllProper rule es

end

variable {rule : Rule} {e : Encoding} {es : List Encoding}

theorem allProper_iff : AllProper rule es ↔ ∀ e ∈ es, e.Proper rule := by
  induction es with
  | nil => simp [AllProper]
  | cons e es ih => simp [AllProper, ih]

theorem Proper.withTag {tag : Tag} (h : e.Proper rule) (ht : tag ≠ .endOfContents) :
    (e.withTag tag).Proper rule := by
  cases e with
  | primitive _ s => exact ht
  | constructed _ indefinite es => exact ⟨ht, h.2⟩

theorem admits_shortest {tag : Tag} {indefinite : Bool} {n : Nat} (ht : tag ≠ .endOfContents)
    (hi : indefinite = true → rule.indefiniteLengths = true)
    (hn : indefinite = false → n < UInt64.size) :
    (Header.shortest tag indefinite n).Admits rule n := by
  refine ⟨ht, by simp [Header.shortest], ?_⟩
  cases indefinite with
  | true => exact hi rfl
  | false => exact LengthForm.admits_shortest rule (hn rfl)

theorem shortest_length_eq_indefinite_iff {tag : Tag} {indefinite : Bool} {n : Nat} :
    (Header.shortest tag indefinite n).length = .indefinite ↔ indefinite = true := by
  cases indefinite <;> simp [Header.shortest, LengthForm.shortest_ne_indefinite]

mutual

theorem admitted_wire : ∀ e : Encoding, e.Proper rule → e.wire.longest < UInt64.size →
    e.wire.Admitted rule
  | primitive tag s, h, hl => by
    refine ⟨admits_shortest h (by simp) fun _ => hl, ?_⟩
    simp [shortest_length_eq_indefinite_iff]
  | constructed tag indefinite es, h, hl => by
    rw [wire, Wire.longest, Nat.max_lt, joined_wires] at hl
    rw [wire, Wire.Admitted, joined_wires]
    refine ⟨admits_shortest h.1 h.2.1 fun hi => ?_, admitted_wires es h.2.2 hl.2⟩
    simpa [shortest_length_eq_indefinite_iff, hi] using hl.1

theorem admitted_wires : ∀ es : List Encoding, AllProper rule es →
    Wire.longests (wires es) < UInt64.size → Wire.AllAdmitted rule (wires es)
  | [], _, _ => trivial
  | e :: es, h, hl => by
    rw [wires, Wire.longests, Nat.max_lt] at hl
    exact ⟨admitted_wire e h.1 hl.1, admitted_wires es h.2 hl.2⟩

end

end Encoding

mutual

/-- No tagged object, at any depth, has a tag of class UNIVERSAL. -/
def Value.Valid : Value → Prop
  | .sequence vs | .set vs => Value.AllValid vs
  | .tagged t => t.Valid
  | .unknown _ c => c.Valid
  | _ => True

def Tagged.Valid : Tagged → Prop
  | .explicit tag base | .implicit tag base => tag.cls ≠ .universal ∧ base.Valid
  | .raw tag _ c => tag.cls ≠ .universal ∧ c.Valid

def Contents.Valid : Contents → Prop
  | .primitive _ => True
  | .constructed vs => Value.AllValid vs

def Value.AllValid : List Value → Prop
  | [] => True
  | v :: vs => v.Valid ∧ Value.AllValid vs

end

theorem Value.allValid_iff {vs : List Value} : Value.AllValid vs ↔ ∀ v ∈ vs, v.Valid := by
  induction vs with
  | nil => simp [Value.AllValid]
  | cons v vs ih => simp [Value.AllValid, ih]

theorem Tagged.Valid.cls_ne {t : Tagged} (h : t.Valid) : t.tag.cls ≠ .universal := by
  cases t <;> exact h.1

theorem Value.encodings_eq_map (rule : Rule) (vs : List Value) :
    Value.encodings rule vs = vs.map (Value.encoding rule) := by
  induction vs with
  | nil => rfl
  | cons v vs ih => rw [Value.encodings, ih, List.map_cons]

def Value.arranged (rule : Rule) (vs : List Value) : List Value :=
  if rule.sortedSets then vs.mergeSort fun v w => Octets.le v.der w.der else vs

theorem Value.arranged_perm (rule : Rule) (vs : List Value) : (arranged rule vs).Perm vs := by
  unfold arranged
  split
  · exact List.mergeSort_perm _ _
  · exact .refl vs

theorem Value.encoding_set (rule : Rule) (vs : List Value) :
    (set vs).encoding rule = .constructed UniversalType.set.tag rule.indefiniteLengths
      ((arranged rule vs).map (encoding rule)) := by
  have hsort : (vs.mergeSort fun v w => Octets.le v.der w.der).map (encoding .der) =
      (vs.map (encoding .der)).mergeSort fun a b => Octets.le a.octets b.octets :=
    List.map_mergeSort fun _ _ _ _ => rfl
  rw [Value.encoding, encodings_eq_map, arranged]
  cases rule with
  | der => exact congrArg (Encoding.constructed _ false) hsort.symm
  | _ => rfl

theorem UniversalType.tag_ne (u : UniversalType) : u.tag ≠ .endOfContents := by
  cases u with
  | string k => cases k <;> decide
  | _ => decide

theorem Value.Valid.tag_ne {v : Value} (h : v.Valid) : v.tag ≠ .endOfContents := by
  cases v with
  | tagged t => exact fun ht => h.cls_ne (congrArg Tag.cls ht)
  | unknown n c => exact fun ht => n.ne_zero (congrArg Tag.number ht)
  | _ => exact UniversalType.tag_ne _

section

variable (rule : Rule)

mutual

/-- A value is written under its own tag, and as constructed if it says so. -/
theorem Value.identifier_encoding : ∀ v : Value, (v.encoding rule).identifier = v.identifier
  | .tagged t => Tagged.identifier_encoding t
  | .unknown n c => Contents.identifier_encoding c _
  | .set vs => by rw [Value.encoding_set]; rfl
  | .boolean _ | .integer _ | .bitString _ | .octetString _ | .null | .oid _ | .enumerated _
  | .string _ | .sequence _ => rfl

theorem Tagged.identifier_encoding : ∀ t : Tagged, (t.encoding rule).identifier = t.identifier
  | .explicit _ _ => rfl
  | .implicit tag base => by
    rw [Tagged.encoding, Encoding.identifier_withTag, Value.identifier_encoding base]
    rfl
  | .raw tag _ c => Contents.identifier_encoding c tag

theorem Contents.identifier_encoding : ∀ (c : Contents) (tag : Tag),
    (c.encoding rule tag).identifier = ⟨tag, c.isConstructed⟩
  | .primitive _, _ => rfl
  | .constructed _, _ => rfl

end

mutual

theorem Value.isOpen_encoding :
    ∀ v : Value, (v.encoding rule).isOpen = (v.identifier.constructed && rule.indefiniteLengths)
  | .tagged t => Tagged.isOpen_encoding t
  | .unknown n c => Contents.isOpen_encoding c _
  | .set vs => by rw [Value.encoding_set]; rfl
  | .boolean _ | .integer _ | .bitString _ | .octetString _ | .null | .oid _ | .enumerated _
  | .string _ | .sequence _ => rfl

theorem Tagged.isOpen_encoding :
    ∀ t : Tagged, (t.encoding rule).isOpen = (t.isConstructed && rule.indefiniteLengths)
  | .explicit _ _ => rfl
  | .implicit tag base => by
    rw [Tagged.encoding, Encoding.isOpen_withTag, Value.isOpen_encoding base]
    rfl
  | .raw tag _ c => Contents.isOpen_encoding c tag

theorem Contents.isOpen_encoding : ∀ (c : Contents) (tag : Tag),
    (c.encoding rule tag).isOpen = (c.isConstructed && rule.indefiniteLengths)
  | .primitive _, _ => rfl
  | .constructed _, _ => rfl

end

mutual

theorem Value.proper_encoding : ∀ v : Value, v.Valid → (v.encoding rule).Proper rule
  | .tagged t, h => Tagged.proper_encoding t h
  | .unknown n c, h => Contents.proper_encoding c h (Value.Valid.tag_ne (v := .unknown n c) h)
  | .sequence vs, h => ⟨UniversalType.tag_ne _, id, Value.proper_encodings vs h⟩
  | .set vs, h => by
    have hs := Encoding.allProper_iff.1 (Value.proper_encodings vs h)
    rw [Value.encodings_eq_map] at hs
    rw [Value.encoding_set]
    refine ⟨UniversalType.tag_ne _, id, Encoding.allProper_iff.2 fun e he => hs e ?_⟩
    exact ((Value.arranged_perm rule vs).map _).mem_iff.1 he
  | .boolean _, _ | .integer _, _ | .bitString _, _ | .octetString _, _ | .null, _ | .oid _, _
  | .enumerated _, _ | .string _, _ => UniversalType.tag_ne _

theorem Tagged.proper_encoding : ∀ t : Tagged, t.Valid → (t.encoding rule).Proper rule
  | .explicit _ base, h =>
    ⟨fun ht => h.1 (congrArg Tag.cls ht), id, Value.proper_encoding base h.2, trivial⟩
  | .implicit _ base, h =>
    (Value.proper_encoding base h.2).withTag fun ht => h.1 (congrArg Tag.cls ht)
  | .raw _ _ c, h => Contents.proper_encoding c h.2 fun ht => h.1 (congrArg Tag.cls ht)

theorem Contents.proper_encoding : ∀ (c : Contents), c.Valid → ∀ {tag : Tag},
    tag ≠ .endOfContents → (c.encoding rule tag).Proper rule
  | .primitive _, _, _, ht => ht
  | .constructed vs, h, _, ht => ⟨ht, id, Value.proper_encodings vs h⟩

theorem Value.proper_encodings :
    ∀ vs : List Value, Value.AllValid vs → Encoding.AllProper rule (Value.encodings rule vs)
  | [], _ => trivial
  | v :: vs, h => ⟨Value.proper_encoding v h.1, Value.proper_encodings vs h.2⟩

end

end

namespace Value

/-- The unit as which a value is written under a rule. -/
def wire (rule : Rule) (v : Value) : Wire := (v.encoding rule).wire

theorem octets_wire (rule : Rule) (v : Value) : (v.wire rule).octets = v.octets rule :=
  Encoding.octets_wire _

theorem admitted_wire {options : ReaderOptions} {v : Value} (hv : v.Valid)
    (hw : (v.wire options.rule).Within options) :
    (v.wire options.rule).Admitted options.rule :=
  Encoding.admitted_wire _ (proper_encoding _ v hv)
    (Nat.lt_of_le_of_lt hw.2 options.lengthLimit.toNat_lt)

theorem ofOctets_of_denotes {options : ReaderOptions} {v w : Value} (hv : v.Valid)
    (hw : (v.wire options.rule).Within options)
    (hd : (v.wire options.rule).Denotes options.rule w) :
    Value.ofOctets options (v.octets options.rule) = .ok w := by
  rw [← octets_wire]
  exact Wire.ofOctets_octets (admitted_wire hv hw) hw hd

end Value

end Tlv
