import Tlv.Proofs.Canonical

/-! # Spellings under BER

BER leaves many choices to the writer: the forms of headers, any octet for TRUE, unused bits, the
order of SET elements, and strings in nested segments. `Wire.Spells` has one rule for each. However
they are made, the reader gives a value equal to the one that was spelled.
-/

namespace Tlv

namespace Wire

/-- The ways to write octets under a tag: as they are, or in OCTET STRING segments. -/
inductive SpellsOctets : Tag → Wire → Octets → Prop where
  | primitive {h : Header} {tag : Tag} (ht : h.tag = tag) (s : Octets) :
      SpellsOctets tag (.primitive h s) s
  | segments {h : Header} {tag : Tag} {us : List Wire} {ss : List Octets} (ht : h.tag = tag)
      (hs : List.Forall₂ (SpellsOctets UniversalType.octetString.tag) us ss) :
      SpellsOctets tag (.constructed h us) ss.flatten

/-- The ways to write a bit string: with any unused bits, or in one or more segments, all of them
but the last without unused bits. -/
inductive SpellsBits : Wire → BitString → Prop where
  | primitive {h : Header} {a b : BitString} (ht : h.tag = UniversalType.bitString.tag)
      (hu : a.unused = b.unused) (hc : a.cleared = b.cleared) :
      SpellsBits (.primitive h a.contents) b
  | segments {h : Header} {us : List Wire} {as : List BitString} {b : BitString}
      (ht : h.tag = UniversalType.bitString.tag) (hs : List.Forall₂ SpellsBits us (as ++ [b]))
      (h0 : ∀ a ∈ as, a.unused = 0) : SpellsBits (.constructed h us) (as.foldr .append b)

/-- The ways to write a value. An implicit tag has none, since it cannot be read back as one. -/
inductive Spells : Wire → Value → Prop where
  | false {h : Header} (ht : h.tag = UniversalType.boolean.tag) :
      Spells (.primitive h [0x00]) (.boolean false)
  | true {h : Header} (ht : h.tag = UniversalType.boolean.tag) {a : UInt8} (ha : a ≠ 0x00) :
      Spells (.primitive h [a]) (.boolean true)
  | integer {h : Header} (ht : h.tag = UniversalType.integer.tag) (n : Integer) :
      Spells (.primitive h n.octets) (.integer n)
  | enumerated {h : Header} (ht : h.tag = UniversalType.enumerated.tag) (n : Integer) :
      Spells (.primitive h n.octets) (.enumerated n)
  | null {h : Header} (ht : h.tag = UniversalType.null.tag) : Spells (.primitive h []) .null
  | oid {h : Header} (ht : h.tag = UniversalType.oid.tag) (id : Oid) :
      Spells (.primitive h id.octets) (.oid id)
  | octetString {u : Wire} {s : Octets}
      (hs : SpellsOctets UniversalType.octetString.tag u s) : Spells u (.octetString s)
  | string {u : Wire} {s : CharString}
      (hs : SpellsOctets (UniversalType.string s.kind).tag u s.octets) : Spells u (.string s)
  | bitString {u : Wire} {b : BitString} (hb : SpellsBits u b) : Spells u (.bitString b)
  | sequence {h : Header} {us : List Wire} {vs : List Value}
      (ht : h.tag = UniversalType.sequence.tag) (hs : List.Forall₂ Spells us vs) :
      Spells (.constructed h us) (.sequence vs)
  | set {h : Header} {us : List Wire} {vs ws : List Value} (ht : h.tag = UniversalType.set.tag)
      (hs : List.Forall₂ Spells us vs) (hp : vs.Perm ws) : Spells (.constructed h us) (.set ws)
  | explicit {h : Header} {u : Wire} {base : Value} (hb : Spells u base) :
      Spells (.constructed h [u]) (.tagged (.explicit h.tag base))
  | rawPrimitive (h : Header) (rule : Rule) (s : Octets) :
      Spells (.primitive h s) (.tagged (.raw h.tag rule (.primitive s)))
  | rawConstructed {h : Header} (rule : Rule) {us : List Wire} {vs : List Value}
      (hs : List.Forall₂ Spells us vs) :
      Spells (.constructed h us) (.tagged (.raw h.tag rule (.constructed vs)))
  | unknownPrimitive {h : Header} {n : UnassignedNumber} (ht : h.tag = .universal n.number)
      (s : Octets) : Spells (.primitive h s) (.unknown n (.primitive s))
  | unknownConstructed {h : Header} {n : UnassignedNumber} (ht : h.tag = .universal n.number)
      {us : List Wire} {vs : List Value} (hs : List.Forall₂ Spells us vs) :
      Spells (.constructed h us) (.unknown n (.constructed vs))

variable {rule : Rule} {u : Wire} {c : Contents} {v : Value}

theorem Holds.denotes_universal {t : UniversalType} (hc : u.Holds rule c)
    (ht : u.header.tag = t.tag) (hv : t.ofContents rule c = .ok v) : u.Denotes rule v :=
  hc.denotes ht t.tag_ne ((Value.ofContents_universal t _).trans hv)

end Wire

/-! ## Strings -/

/-- The contents hold the octets, whole or in segments. -/
def Contents.Joins (s : Octets) : Contents → Prop
  | .primitive t => t = s
  | .constructed vs => joinOctets vs = .ok s

theorem Contents.Joins.octetString {c : Contents} {s : Octets} (h : c.Joins s) :
    UniversalType.octetString.ofContents .ber c = .ok (.octetString s) := by
  cases c with
  | primitive t => exact congrArg (Except.ok ∘ Value.octetString) h
  | constructed vs => exact congrArg (Except.map Value.octetString) h

theorem Contents.Joins.string {c : Contents} {s : CharString} (h : c.Joins s.octets) :
    (UniversalType.string s.kind).ofContents .ber c = .ok (.string s) := by
  cases c with
  | primitive t => exact congrArg (fun t => Except.ok (Value.string ⟨s.kind, t⟩)) h
  | constructed vs => exact congrArg (Except.map fun t => Value.string ⟨s.kind, t⟩) h

theorem joinOctets_map (ss : List Octets) :
    joinOctets (ss.map Value.octetString) = .ok ss.flatten := by
  induction ss with
  | nil => rfl
  | cons s ss ih =>
    rw [List.map_cons, joinOctets, ih]
    rfl

theorem bitSegments_map (bs : List BitString) :
    bitSegments (bs.map Value.bitString) = .ok bs := by
  induction bs with
  | nil => rfl
  | cons b bs ih =>
    rw [List.map_cons, bitSegments, ih]
    rfl

theorem ofContents_bitSegments {bs : List BitString} {b : BitString}
    (h : BitString.join bs = .ok b) :
    UniversalType.bitString.ofContents .ber (.constructed (bs.map Value.bitString)) =
      .ok (.bitString b) := by
  change (bitSegments (bs.map Value.bitString) >>= fun bs =>
    BitString.join bs >>= fun b => pure (Value.bitString b)) = _
  rw [bitSegments_map]
  change (BitString.join bs >>= fun b => pure (Value.bitString b)) = _
  rw [h]
  rfl

namespace Wire

theorem SpellsOctets.tag_eq {tag : Tag} {u : Wire} {s : Octets} (h : SpellsOctets tag u s) :
    u.header.tag = tag := by
  cases h <;> assumption

theorem SpellsOctets.exists_holds {tag : Tag} {u : Wire} {s : Octets}
    (h : SpellsOctets tag u s) : ∃ c, u.Holds .ber c ∧ c.Joins s := by
  cases h with
  | primitive ht s => exact ⟨_, .primitive, rfl⟩
  | @segments h _ us ss ht hs =>
    have hd : List.Forall₂ (fun u s => u.Denotes .ber (.octetString s)) us ss := by
      apply forall₂_imp_of_mem hs
      intro u hu s _ hus
      obtain ⟨c, hc, hj⟩ := hus.exists_holds
      exact hc.denotes_universal hus.tag_eq hj.octetString
    exact ⟨_, .constructed (List.forall₂_map_right_iff.2 hd), joinOctets_map ss⟩
termination_by sizeOf u

theorem exists_forall₂ {α β γ : Type} {R : α → γ → Prop} {S : γ → β → Prop} {xs : List α}
    {ys : List β} (h : List.Forall₂ (fun x y => ∃ z, R x z ∧ S z y) xs ys) :
    ∃ zs, List.Forall₂ R xs zs ∧ List.Forall₂ S zs ys := by
  induction h with
  | nil => exact ⟨[], .nil, .nil⟩
  | cons h _ ih =>
    obtain ⟨z, hr, hs⟩ := h
    obtain ⟨zs, hrs, hss⟩ := ih
    exact ⟨z :: zs, .cons hr hrs, .cons hs hss⟩

theorem SpellsBits.exists_denotes {u : Wire} {b : BitString} (h : SpellsBits u b) :
    ∃ a, u.Denotes .ber (.bitString a) ∧ a == b := by
  cases h with
  | @primitive h a b ht hu hc =>
    refine ⟨a, Holds.primitive.denotes_universal ht ?_, BitString.beq_iff.2 ⟨hu, hc⟩⟩
    have ha : BitString.ofContents .ber a.contents = .ok a := BitString.ofContents_contents nofun
    exact congrArg (Except.map Value.bitString) ha
  | @segments h us as b ht hs h0 =>
    have hd : List.Forall₂ (fun u b => ∃ a, u.Denotes .ber (.bitString a) ∧ a == b) us
        (as ++ [b]) := by
      apply forall₂_imp_of_mem hs
      intro u hu b _ hub
      exact hub.exists_denotes
    obtain ⟨cs, hcs, hbs⟩ := exists_forall₂ hd
    obtain ⟨c, hj, hc⟩ := BitString.exists_join hbs h0
    refine ⟨c, (Holds.constructed (List.forall₂_map_right_iff.2 hcs)).denotes_universal ht ?_, hc⟩
    exact ofContents_bitSegments hj
termination_by sizeOf u

end Wire

/-! ## Values -/

namespace Wire

/-- The unit, under BER, stands for a value equal to `v`. -/
def StandsFor (u : Wire) (v : Value) : Prop := ∃ w, u.Denotes .ber w ∧ w == v

variable {h : Header} {us : List Wire} {vs ws : List Value} {c : Contents} {u : Wire} {v : Value}

theorem Holds.standsFor {t : UniversalType} (hc : u.Holds .ber c) (ht : u.header.tag = t.tag)
    (hv : t.ofContents .ber c = .ok v) : u.StandsFor v :=
  ⟨v, hc.denotes_universal ht hv, Value.beq_refl v⟩

theorem standsFor_sequence (ht : h.tag = UniversalType.sequence.tag)
    (hs : List.Forall₂ StandsFor us vs) : (constructed h us).StandsFor (.sequence vs) := by
  obtain ⟨xs, hd, hx⟩ := exists_forall₂ hs
  exact ⟨_, (Holds.constructed hd).denotes_universal ht rfl, Value.beqAll_iff.2 hx⟩

theorem standsFor_set (ht : h.tag = UniversalType.set.tag) (hs : List.Forall₂ StandsFor us vs)
    (hp : vs.Perm ws) : (constructed h us).StandsFor (.set ws) := by
  obtain ⟨xs, hd, hx⟩ := exists_forall₂ hs
  refine ⟨_, (Holds.constructed hd).denotes_universal ht rfl, ?_⟩
  exact Value.beq_iff_alike.2 (.set (Value.sortedDer_eq_of_forall₂ hp hx))

theorem Holds.standsFor_tagged {t : Tagged} (hc : u.Holds .ber c) (ht : u.header.tag = t.tag)
    (hv : t.Valid) (hi : c.isConstructed = t.isConstructed)
    (ho : c.derContents = t.derContents) : u.StandsFor (.tagged t) := by
  refine ⟨_, hc.denotes ht (Value.Valid.tag_ne (v := .tagged t) hv)
    (Value.ofContents_tagged hv.cls_ne _), Tagged.beq_iff.2 ⟨?_, ?_⟩⟩
  · exact congrArg (Identifier.mk t.tag) hi
  · rw [Tagged.derContents_raw, ho]

theorem standsFor_explicit {base : Value} (hv : (Tagged.explicit h.tag base).Valid)
    (hb : u.StandsFor base) :
    (constructed h [u]).StandsFor (.tagged (.explicit h.tag base)) := by
  obtain ⟨w, hd, hw⟩ := hb
  apply (Holds.constructed (.cons hd .nil)).standsFor_tagged rfl hv rfl
  rw [Tagged.derContents_explicit, ← Value.der_eq_of_beq hw]
  exact List.append_nil _

theorem standsFor_raw {rule : Rule} (hv : (Tagged.raw h.tag rule (.constructed vs)).Valid)
    (hs : List.Forall₂ StandsFor us vs) :
    (constructed h us).StandsFor (.tagged (.raw h.tag rule (.constructed vs))) := by
  obtain ⟨xs, hd, hx⟩ := exists_forall₂ hs
  apply (Holds.constructed hd).standsFor_tagged rfl hv rfl
  rw [Tagged.derContents_raw]
  exact Value.flatMap_der_eq_of_beq hx

theorem standsFor_unknown {n : UnassignedNumber} (ht : h.tag = .universal n.number)
    (hs : List.Forall₂ StandsFor us vs) :
    (constructed h us).StandsFor (.unknown n (.constructed vs)) := by
  obtain ⟨xs, hd, hx⟩ := exists_forall₂ hs
  exact ⟨_, (Holds.constructed hd).denotes ht (fun he => n.ne_zero (congrArg Tag.number he))
    (Value.ofContents_unknown n _), Value.beq_iff_alike.2 (.unknown n hx)⟩

/-- A spelling of a value stands for it. -/
theorem Spells.standsFor {u : Wire} {v : Value} (hs : u.Spells v) (hv : v.Valid) :
    u.StandsFor v := by
  -- the recursion is on the unit, since the elements of a SET are permuted on the side of the value
  have elements {us : List Wire} {vs : List Value} (hs : List.Forall₂ Spells us vs)
      (hv : Value.AllValid vs) (hlt : ∀ x ∈ us, sizeOf x < sizeOf u) :
      List.Forall₂ StandsFor us vs := by
    apply forall₂_imp_of_mem hs
    intro x hx y hy hxy
    have := hlt x hx
    exact hxy.standsFor (Value.allValid_iff.1 hv y hy)
  have mem_lt {h : Header} {us : List Wire} (x : Wire) (hx : x ∈ us) :
      sizeOf x < sizeOf (constructed h us) := by
    have := List.sizeOf_lt_of_mem hx
    rw [constructed.sizeOf_spec]
    omega
  cases hs with
  | false ht => exact Holds.primitive.standsFor ht rfl
  | @true h ht a ha =>
    have hb : booleanOfContents .ber [a] = .ok Bool.true := by simp [booleanOfContents, ha]
    exact Holds.primitive.standsFor ht (congrArg (Except.map Value.boolean) hb)
  | integer ht n =>
    exact Holds.primitive.standsFor ht (congrArg (Except.map Value.integer) (n.ofContents_octets _))
  | enumerated ht n =>
    exact Holds.primitive.standsFor ht
      (congrArg (Except.map Value.enumerated) (n.ofContents_octets _))
  | null ht => exact Holds.primitive.standsFor ht rfl
  | oid ht id =>
    exact Holds.primitive.standsFor ht (congrArg (Except.map Value.oid) id.ofContents_octets)
  | octetString hs =>
    obtain ⟨c, hc, hj⟩ := hs.exists_holds
    exact hc.standsFor hs.tag_eq hj.octetString
  | string hs =>
    obtain ⟨c, hc, hj⟩ := hs.exists_holds
    exact hc.standsFor hs.tag_eq hj.string
  | bitString hb =>
    obtain ⟨a, ha, hab⟩ := hb.exists_denotes
    exact ⟨_, ha, hab⟩
  | sequence ht hs => exact standsFor_sequence ht (elements hs hv mem_lt)
  | set ht hs hp =>
    refine standsFor_set ht (elements hs (Value.allValid_iff.2 fun x hx => ?_) mem_lt) hp
    exact Value.allValid_iff.1 hv x (hp.mem_iff.1 hx)
  | explicit hb =>
    have hl := elements (.cons hb .nil) ⟨hv.2, trivial⟩ mem_lt
    cases hl with
    | cons hl _ => exact standsFor_explicit hv hl
  | rawPrimitive h rule s =>
    exact Holds.primitive.standsFor_tagged rfl hv rfl (Tagged.derContents_raw _ _ _).symm
  | rawConstructed rule hs => exact standsFor_raw hv (elements hs hv.2 mem_lt)
  | @unknownPrimitive h n ht s =>
    exact ⟨_, Holds.primitive.denotes ht (fun he => n.ne_zero (congrArg Tag.number he))
      (Value.ofContents_unknown n _), Value.beq_refl _⟩
  | unknownConstructed ht hs => exact standsFor_unknown ht (elements hs hv mem_lt)
termination_by sizeOf u

end Wire

/-! ## The encoder's choices -/

mutual

/-- No tagged object, at any depth, was built with an implicit tag. -/
def Value.NoImplicit : Value → Prop
  | .sequence vs | .set vs => Value.AllNoImplicit vs
  | .tagged t => t.NoImplicit
  | .unknown _ c => c.NoImplicit
  | _ => True

def Tagged.NoImplicit : Tagged → Prop
  | .explicit _ base => base.NoImplicit
  | .implicit _ _ => False
  | .raw _ _ c => c.NoImplicit

def Contents.NoImplicit : Contents → Prop
  | .primitive _ => True
  | .constructed vs => Value.AllNoImplicit vs

def Value.AllNoImplicit : List Value → Prop
  | [] => True
  | v :: vs => v.NoImplicit ∧ Value.AllNoImplicit vs

end

section

variable (rule : Rule)

theorem Wire.forall₂_spells_wires {vs : List Value} (h : ∀ v ∈ vs, (v.wire rule).Spells v) :
    List.Forall₂ Wire.Spells (Encoding.wires (vs.map (Value.encoding rule))) vs := by
  rw [Encoding.wires_eq_map, List.map_map, List.forall₂_map_left_iff, List.forall₂_same]
  exact h

mutual

theorem Value.spells_wire : ∀ v : Value, v.NoImplicit → (v.wire rule).Spells v
  | .boolean false, _ => .false rfl
  | .boolean true, _ => .true rfl (by decide)
  | .integer n, _ => .integer rfl n
  | .bitString b, _ => by
    apply Wire.Spells.bitString
    rw [Value.wire, Value.encoding, ← BitString.contents_under]
    exact .primitive rfl BitString.unused_under BitString.cleared_under
  | .octetString s, _ => .octetString (.primitive (h := .shortest _ false _) rfl s)
  | .null, _ => .null rfl
  | .oid id, _ => .oid rfl id
  | .enumerated n, _ => .enumerated rfl n
  | .string s, _ => .string (.primitive (h := .shortest _ false _) rfl s.octets)
  | .sequence vs, h => by
    rw [Value.wire, Value.encoding, Value.encodings_eq_map]
    exact .sequence rfl (Wire.forall₂_spells_wires rule (Value.spells_wire_of_mem vs h))
  | .set vs, h => by
    have hp := Value.arranged_perm rule vs
    rw [Value.wire, Value.encoding_set]
    refine .set rfl (Wire.forall₂_spells_wires rule fun v hv => ?_) hp
    exact Value.spells_wire_of_mem vs h v (hp.mem_iff.1 hv)
  | .tagged (.explicit _ base), h => .explicit (Value.spells_wire base h)
  | .tagged (.raw _ r (.primitive s)), _ => .rawPrimitive _ r s
  | .tagged (.raw tag r (.constructed vs)), h => by
    rw [Value.wire, Value.encoding, Tagged.encoding, Contents.encoding, Value.encodings_eq_map]
    exact .rawConstructed r (Wire.forall₂_spells_wires rule (Value.spells_wire_of_mem vs h))
  | .unknown _ (.primitive s), _ => .unknownPrimitive rfl s
  | .unknown n (.constructed vs), h => by
    rw [Value.wire, Value.encoding, Contents.encoding, Value.encodings_eq_map]
    exact .unknownConstructed rfl (Wire.forall₂_spells_wires rule (Value.spells_wire_of_mem vs h))

theorem Value.spells_wire_of_mem : ∀ vs : List Value, Value.AllNoImplicit vs →
    ∀ v ∈ vs, (v.wire rule).Spells v
  | [], _ => List.forall_mem_nil _
  | v :: vs, h => List.forall_mem_cons.2 ⟨Value.spells_wire v h.1, Value.spells_wire_of_mem vs h.2⟩

end

end

/-- BER octets of a value, whatever choices they make, are read back as an equal value. -/
theorem Value.ofOctets_spelling {options : ReaderOptions} {u : Wire} {v : Value} (hv : v.Valid)
    (hs : u.Spells v) (hr : options.rule = .ber) (ha : u.Admitted .ber) (hw : u.Within options) :
    ∃ w, Value.ofOctets options u.octets = .ok w ∧ w == v ∧ w.der = v.der := by
  obtain ⟨w, hd, hwv⟩ := hs.standsFor hv
  rw [← hr] at ha hd
  exact ⟨w, Wire.ofOctets_octets ha hw hd, hwv, Value.der_eq_of_beq hwv⟩

def Value.mixedSet : Value :=
  .set [.boolean true, .bitString ⟨2, [0xFF, 0xA8], by decide, by decide⟩, .octetString [1, 2, 3],
    .tagged (.explicit (.context 5) (.sequence [.null]))]

def UniversalType.header (t : UniversalType) (form : LengthForm) : Header := ⟨t.tag, false, form⟩

open UniversalType in
/-- The SET against its order, with headers of all forms and strings in nested segments. -/
def Wire.mixedSet : Wire :=
  .constructed ⟨UniversalType.set.tag, true, .indefinite⟩
    [.constructed ⟨.context 5, true, .long 4⟩
      [.constructed (sequence.header .indefinite) [.primitive (null.header .short) []]],
    .constructed (octetString.header .indefinite)
      [.constructed (octetString.header (.long 2))
        [.primitive (octetString.header .short) [1], .primitive (octetString.header (.long 1)) []],
      .primitive (octetString.header .short) [2, 3]],
    .constructed (bitString.header (.long 126))
      [.primitive (bitString.header .short) [0, 0xFF],
      .primitive (bitString.header .short) [2, 0xAB]],
    .primitive ⟨UniversalType.boolean.tag, true, .long 3⟩ [0x01]]

theorem Wire.spells_mixedSet : mixedSet.Spells .mixedSet := by
  have leaf (form : LengthForm) (s : Octets) : SpellsOctets UniversalType.octetString.tag
      (.primitive (UniversalType.octetString.header form) s) s := by
    refine .primitive ?_ s
    rfl
  let a : BitString := ⟨0, [0xFF], by decide, by decide⟩
  let b : BitString := ⟨2, [0xA8], by decide, by decide⟩
  have hb : SpellsBits (.primitive (UniversalType.bitString.header .short) [2, 0xAB]) b :=
    @SpellsBits.primitive _ ⟨2, [0xAB], by decide, by decide⟩ b rfl rfl (by decide)
  refine .set rfl ?_ (List.reverse_perm _)
  refine .cons ?_ (.cons ?_ (.cons ?_ (.cons ?_ .nil)))
  · exact .explicit (.sequence rfl (.cons (.null rfl) .nil))
  · change Spells _ (.octetString [[[1], []].flatten, [2, 3]].flatten)
    refine .octetString (.segments rfl (.cons (.segments rfl ?_) (.cons (leaf _ _) .nil)))
    exact .cons (leaf _ _) (.cons (leaf _ _) .nil)
  · refine .bitString (b := [a].foldr .append b) (.segments rfl ?_ (by simp [a]))
    exact .cons (@SpellsBits.primitive _ a a rfl rfl rfl) (.cons hb .nil)
  · exact .true rfl (by decide)

theorem Value.ofOctets_mixedSet :
    ∃ w, Value.ofOctets (.ofRule .ber) Wire.mixedSet.octets = .ok w ∧ w == mixedSet ∧
      w.der = mixedSet.der :=
  ofOctets_spelling ⟨trivial, trivial, trivial, ⟨by decide, trivial, trivial⟩, trivial⟩
    Wire.spells_mixedSet rfl (by decide) ⟨by cbv, by cbv⟩

end Tlv
