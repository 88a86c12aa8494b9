import Tlv.Value.Contents

/-! # What contents stand for

The tag of a unit selects how its contents are read. The contents that the encoder writes for a
value of a universal type are read as that value. `UniversalType.Gives` lists the other way round
what a universal type can make of contents, so that no later proof takes the reader apart again.
-/

namespace Tlv

section

variable {ε ε' α β : Type} {x : Except ε α}

theorem except_map_eq_ok_iff {f : α → β} {b : β} :
    x.map f = .ok b ↔ ∃ a, x = .ok a ∧ f a = b := by
  cases x <;> simp [Except.map]

theorem except_bind_eq_ok_iff {f : α → Except ε β} {b : β} :
    x >>= f = .ok b ↔ ∃ a, x = .ok a ∧ f a = .ok b := by
  cases x <;> simp [bind, Except.bind]

theorem except_mapError_eq_ok_iff {f : ε → ε'} {a : α} : x.mapError f = .ok a ↔ x = .ok a := by
  cases x with
  | error e => exact ⟨nofun, nofun⟩
  | ok b =>
    constructor
    · intro h
      cases h
      rfl
    · intro h
      cases h
      rfl

end

namespace Value

variable {rule : Rule} {c : Contents}

theorem ofContents_universal (u : UniversalType) (h : u.tag ≠ .endOfContents) :
    ofContents u.tag h rule c = u.ofContents rule c := by
  rw [ofContents, dif_pos (show u.tag.cls = .universal from rfl)]
  split <;> rename_i hu <;> rw [show u.tag.number = u.number from rfl, u.ofNumber?_number] at hu
  · rw [Option.some.inj hu]
  · cases hu

theorem ofContents_unknown (n : UnassignedNumber) (h : Tag.universal n.number ≠ .endOfContents) :
    ofContents (.universal n.number) h rule c = .ok (.unknown n c) := by
  rw [ofContents, dif_pos (show (Tag.universal n.number).cls = .universal from rfl)]
  split <;> rename_i hu
  · cases n.unassigned.symm.trans hu
  · rfl

theorem ofContents_tagged {tag : Tag} (hc : tag.cls ≠ .universal) (h : tag ≠ .endOfContents) :
    ofContents tag h rule c = .ok (.tagged (.raw tag rule c)) := by
  rw [ofContents, dif_neg hc]

theorem expectUniversal_eq_ok_iff {n : UInt32} {v w : Value} :
    v.expectUniversal n = .ok w ↔ v = w ∧ w.tag = .universal n := by
  unfold expectUniversal
  constructor
  · intro h
    split at h
    · rename_i ht
      cases h
      exact ⟨rfl, ht⟩
    · cases h
  · rintro ⟨rfl, ht⟩
    exact if_pos ht

end Value

theorem booleanOfContents_octet (rule : Rule) (b : Bool) :
    booleanOfContents rule [if b then 0xFF else 0x00] = .ok b := by
  cases b with
  | false => rfl
  | true => simp [booleanOfContents]

theorem Integer.ofContents_octets (typeName : String) (n : Integer) :
    Integer.ofContents typeName n.octets = .ok n := by
  rw [ofContents, dif_pos n.minimal]

theorem Oid.ofContents_octets (id : Oid) : Oid.ofContents id.octets = .ok id := by
  rw [ofContents]
  split <;> rename_i h
  · rfl
  · cases id.valid.symm.trans h

/-! ## What a type makes of contents -/

/-- The values that a universal type can make of contents under a rule. -/
inductive UniversalType.Gives (rule : Rule) : UniversalType → Contents → Value → Prop where
  | false : Gives rule boolean (.primitive [0x00]) (.boolean false)
  | true {a : UInt8} (ha : a ≠ 0x00) (hr : rule = .der → a = 0xFF) :
      Gives rule boolean (.primitive [a]) (.boolean true)
  | integer (n : Integer) : Gives rule integer (.primitive n.octets) (.integer n)
  | enumerated (n : Integer) : Gives rule enumerated (.primitive n.octets) (.enumerated n)
  | bitString {b : BitString} (hr : rule = .der → b.cleared = b.data) :
      Gives rule bitString (.primitive b.contents) (.bitString b)
  | octetString (s : Octets) : Gives rule octetString (.primitive s) (.octetString s)
  | null : Gives rule null (.primitive []) .null
  | oid (id : Oid) : Gives rule oid (.primitive id.octets) (.oid id)
  | string (k : StringType) (s : Octets) : Gives rule (string k) (.primitive s) (.string ⟨k, s⟩)
  | sequence (vs : List Value) : Gives rule sequence (.constructed vs) (.sequence vs)
  | set (vs : List Value) : Gives rule set (.constructed vs) (.set vs)
  | bitSegments {vs : List Value} {bs : List BitString} {b : BitString}
      (hr : rule.segmentedStrings = Bool.true) (hs : Tlv.bitSegments vs = .ok bs)
      (hb : BitString.join bs = .ok b) : Gives rule bitString (.constructed vs) (.bitString b)
  | octetSegments {vs : List Value} {s : Octets} (hr : rule.segmentedStrings = Bool.true)
      (hs : joinOctets vs = .ok s) : Gives rule octetString (.constructed vs) (.octetString s)
  | stringSegments (k : StringType) {vs : List Value} {s : Octets}
      (hr : rule.segmentedStrings = Bool.true) (hs : joinOctets vs = .ok s) :
      Gives rule (string k) (.constructed vs) (.string ⟨k, s⟩)

section

variable {rule : Rule} {u : UniversalType} {c : Contents} {s : Octets} {v : Value}

theorem octets_of_ofContents {typeName : String} {n : Integer}
    (h : Integer.ofContents typeName s = .ok n) : s = n.octets := by
  unfold Integer.ofContents at h
  split at h
  · cases h
    rfl
  · split at h <;> cases h

theorem Oid.octets_of_ofContents {id : Oid} (h : Oid.ofContents s = .ok id) : s = id.octets := by
  unfold Oid.ofContents at h
  split at h
  · cases h
    rfl
  · cases h

theorem BitString.contents_of_ofContents {b : BitString} (h : ofContents rule s = .ok b) :
    s = b.contents ∧ (rule = .der → b.cleared = b.data) := by
  cases s with
  | nil => cases h
  | cons a data =>
    rw [ofContents] at h
    split at h
    case isFalse => cases h
    split at h
    case isFalse => cases h
    dsimp only at h
    split at h
    · cases h
    rename_i hclear
    cases h
    constructor
    · rw [contents, UInt8.ofNat_toNat]
    · rintro rfl
      simpa using hclear

theorem UniversalType.gives_of_ofPrimitive (h : u.ofPrimitive rule s = .ok v) :
    u.Gives rule (.primitive s) v := by
  cases u with
  | boolean =>
    obtain ⟨b, hb, rfl⟩ := except_map_eq_ok_iff.1 h
    unfold booleanOfContents at hb
    split at hb
    · rename_i a
      split at hb
      · rename_i ha
        cases hb
        rw [ha]
        exact .false
      split at hb
      · cases hb
      rename_i ha hr
      cases hb
      refine .true ha fun hder => ?_
      exact Decidable.by_contra fun hff => hr ⟨hff, hder⟩
    · cases hb
  | integer =>
    obtain ⟨n, hn, rfl⟩ := except_map_eq_ok_iff.1 h
    rw [octets_of_ofContents hn]
    exact .integer n
  | enumerated =>
    obtain ⟨n, hn, rfl⟩ := except_map_eq_ok_iff.1 h
    rw [octets_of_ofContents hn]
    exact .enumerated n
  | bitString =>
    obtain ⟨b, hb, rfl⟩ := except_map_eq_ok_iff.1 h
    obtain ⟨rfl, hr⟩ := BitString.contents_of_ofContents hb
    exact .bitString hr
  | oid =>
    obtain ⟨id, hid, rfl⟩ := except_map_eq_ok_iff.1 h
    rw [Oid.octets_of_ofContents hid]
    exact .oid id
  | null =>
    simp only [ofPrimitive] at h
    split at h
    · rename_i hs
      cases h
      rw [hs]
      exact .null
    · cases h
  | octetString =>
    cases h
    exact .octetString s
  | string k =>
    cases h
    exact .string k s
  | sequence => cases h
  | set => cases h

theorem UniversalType.gives_of_ofElements {vs : List Value} (h : u.ofElements rule vs = .ok v) :
    u.Gives rule (.constructed vs) v := by
  have segmented {joined : Except Malformation Value} (h : u.ofSegments rule joined = .ok v) :
      rule.segmentedStrings = true ∧ joined = .ok v := by
    unfold ofSegments at h
    split at h
    · exact ⟨by assumption, h⟩
    · cases h
  cases u with
  | bitString =>
    obtain ⟨hr, h⟩ := segmented h
    obtain ⟨bs, hs, h⟩ := except_bind_eq_ok_iff.1 h
    obtain ⟨b, hb, h⟩ := except_bind_eq_ok_iff.1 h
    cases h
    exact .bitSegments hr hs hb
  | octetString =>
    obtain ⟨hr, h⟩ := segmented h
    obtain ⟨s, hs, rfl⟩ := except_map_eq_ok_iff.1 h
    exact .octetSegments hr hs
  | string k =>
    obtain ⟨hr, h⟩ := segmented h
    obtain ⟨s, hs, rfl⟩ := except_map_eq_ok_iff.1 h
    exact .stringSegments k hr hs
  | sequence =>
    cases h
    exact .sequence vs
  | set =>
    cases h
    exact .set vs
  | _ => cases h

/-- A tag makes of contents a raw object, a value of unknown type, or one of its own type. -/
theorem Value.ofContents_cases {tag : Tag} {hn : tag ≠ .endOfContents}
    (h : ofContents tag hn rule c = .ok v) :
    (tag.cls ≠ .universal ∧ v = .tagged (.raw tag rule c)) ∨
      (∃ n : UnassignedNumber, tag = .universal n.number ∧ v = .unknown n c) ∨
      ∃ u : UniversalType, tag = u.tag ∧ u.Gives rule c v := by
  unfold ofContents at h
  split at h
  case isTrue hcls =>
    obtain ⟨cls, number⟩ := tag
    obtain rfl : cls = .universal := hcls
    split at h
    · rename_i u hu
      have hnum : u.number = number := by simpa using List.find?_some hu
      refine .inr (.inr ⟨u, by rw [UniversalType.tag, hnum]; rfl, ?_⟩)
      cases c with
      | primitive s => exact UniversalType.gives_of_ofPrimitive h
      | constructed vs => exact UniversalType.gives_of_ofElements h
    · cases h
      exact .inr (.inl ⟨_, rfl, rfl⟩)
  case isFalse hcls =>
    cases h
    exact .inl ⟨hcls, rfl⟩

end

end Tlv
