import Tlv.Proofs.Forms
import Tlv.Proofs.ImplicitTag
import Tlv.Proofs.Subvalues

/-! # Explicit or implicit

The octets of a tagged object leave open whether its tag is explicit or implicit. The declarations
do not get in each other's way: contents that can be read as a type by both give different values,
or they are one segment of a string, which is the whole string as well.
-/

namespace Tlv

theorem Rule.eq_ber_of_segmentedStrings {rule : Rule} (h : rule.segmentedStrings = true) :
    rule = .ber := by
  cases rule with
  | ber => rfl
  | _ => cases h

theorem UniversalType.tag_injective {u w : UniversalType} (h : u.tag = w.tag) : u = w := by
  have hn : u.number = w.number := congrArg Tag.number h
  have hu := u.ofNumber?_number
  rw [hn, w.ofNumber?_number] at hu
  exact (Option.some.inj hu).symm

/-! ## Values of a type -/

/-- The universal type of a value, if it is of one. -/
def Value.universalType? : Value → Option UniversalType
  | .boolean _ => some .boolean
  | .integer _ => some .integer
  | .bitString _ => some .bitString
  | .octetString _ => some .octetString
  | .null => some .null
  | .oid _ => some .oid
  | .enumerated _ => some .enumerated
  | .string s => some (.string s.kind)
  | .sequence _ => some .sequence
  | .set _ => some .set
  | .tagged _ | .unknown _ _ => none

theorem Value.Valid.universalType?_eq {v : Value} {u : UniversalType} (hv : v.Valid)
    (ht : v.tag = u.tag) : v.universalType? = some u := by
  cases v with
  | tagged t => exact absurd (congrArg Tag.cls ht) hv.cls_ne
  | unknown n c =>
    have hn : n.number = u.number := congrArg Tag.number ht
    cases n.unassigned.symm.trans (hn ▸ u.ofNumber?_number)
  | _ => exact congrArg some (UniversalType.tag_injective ht)

theorem UniversalType.Gives.of_singleton {rule : Rule} {u : UniversalType} {base v : Value}
    (ht : base.tag = u.tag) (h : u.Gives rule (.constructed [base]) v) :
    (u = .sequence ∧ v = .sequence [base]) ∨ (u = .set ∧ v = .set [base]) ∨
      ((u = .octetString ∨ u = .bitString) ∧ rule = .ber ∧ v = base) := by
  cases h with
  | sequence => exact .inl ⟨rfl, rfl⟩
  | set => exact .inr (.inl ⟨rfl, rfl⟩)
  | bitSegments hr hs hb =>
    cases base with
    | bitString b =>
      cases hs
      cases hb
      exact .inr (.inr ⟨.inr rfl, Rule.eq_ber_of_segmentedStrings hr, rfl⟩)
    | _ => cases hs
  | octetSegments hr hs =>
    cases base with
    | octetString s =>
      cases hs
      exact .inr (.inr ⟨.inl rfl, Rule.eq_ber_of_segmentedStrings hr,
        congrArg Value.octetString (List.append_nil s)⟩)
    | _ => cases hs
  | stringSegments k hr hs =>
    cases base with
    | octetString s => cases UniversalType.tag_injective (u := .octetString) ht
    | _ => cases hs

/-- One segment of a string is the string. -/
theorem UniversalType.ofContents_singleton {u : UniversalType} {base : Value} (hv : base.Valid)
    (ht : base.tag = u.tag) (hu : u = .octetString ∨ u = .bitString) :
    u.ofContents .ber (.constructed [base]) = .ok base := by
  have hbase := hv.universalType?_eq ht
  rcases hu with rfl | rfl
  · cases base with
    | octetString s => exact congrArg (fun s => Except.ok (Value.octetString s)) (List.append_nil s)
    | _ => cases hbase
  · cases base with
    | bitString b => rfl
    | _ => cases hbase

/-! ## A value around a value -/

namespace Value

theorem not_beq_of_length_lt {v w : Value} (h : v.der.length < w.der.length) : ¬ (v == w) := by
  intro hbeq
  rw [der_eq_of_beq hbeq] at h
  exact Nat.lt_irrefl _ h

theorem not_beq_sequence_singleton (v : Value) : ¬ (v == sequence [v]) := by
  apply not_beq_of_length_lt
  have hlt := length_derContents_lt (sequence [v])
  rwa [derContents_sequence, List.flatMap_singleton] at hlt

theorem not_beq_set_singleton (v : Value) : ¬ (v == set [v]) := by
  apply not_beq_of_length_lt
  have hlt := length_derContents_lt (set [v])
  rwa [length_derContents_set, List.flatMap_singleton] at hlt

end Value

/-! ## The two declarations -/

namespace Tagged

variable {tag : Tag} {rule : Rule} {c : Contents} {u : UniversalType} {v w : Value}

theorem peel_raw_eq_ok_iff : (raw tag rule c).peel = .ok v ↔ c = .constructed [v] := by
  cases c with
  | primitive s => simp [peel]
  | constructed vs => rcases vs with _ | ⟨base, _ | ⟨_, _⟩⟩ <;> simp [peel]

theorem resolve_explicit_eq_ok_iff :
    (raw tag rule c).resolve true u.number = .ok v ↔ c = .constructed [v] ∧ v.tag = u.tag := by
  rw [resolve, if_pos rfl, except_bind_eq_ok_iff]
  simp only [peel_raw_eq_ok_iff, Value.expectUniversal_eq_ok_iff]
  constructor
  · rintro ⟨_, rfl, rfl, ht⟩
    exact ⟨rfl, ht⟩
  · rintro ⟨rfl, ht⟩
    exact ⟨v, rfl, rfl, ht⟩

/-- If both declarations give a value, the contents are one element of the type. -/
theorem resolve_both (he : (raw tag rule c).resolve true u.number = .ok v)
    (hi : (raw tag rule c).resolve false u.number = .ok w) :
    c = .constructed [v] ∧ v.tag = u.tag ∧
      ((u = .sequence ∧ w = .sequence [v]) ∨ (u = .set ∧ w = .set [v]) ∨
        ((u = .octetString ∨ u = .bitString) ∧ rule = .ber ∧ w = v)) := by
  obtain ⟨rfl, ht⟩ := resolve_explicit_eq_ok_iff.1 he
  rw [Value.resolve_raw, except_mapError_eq_ok_iff] at hi
  exact ⟨rfl, ht, (UniversalType.gives_of_ofElements hi).of_singleton ht⟩

end Tagged

namespace Value

/-- In what was read, no tagged object can be taken as a value of a type both with an explicit and
with an implicit tag, with these exceptions. For a SEQUENCE or a SET the results differ, as one is
inside the other. An OCTET STRING or a BIT STRING comes out both ways if, and only if, the object
was read under BER and holds nothing but one such string, which is then what both give. -/
theorem explicit_or_implicit {options : ReaderOptions} {s : Octets} {v : Value} {t : Tagged}
    {n : UInt32} {u : UniversalType} (h : ofOctets options s = .ok v)
    (ht : tagged t ∈ v.subvalues) (hu : UniversalType.ofNumber? n = some u) :
    (u ∉ [.sequence, .set, .octetString, .bitString] →
      ¬ ∃ x y, t.resolve true n = .ok x ∧ t.resolve false n = .ok y) ∧
    (u = .sequence ∨ u = .set → ∀ x y, t.resolve true n = .ok x → t.resolve false n = .ok y →
      ¬ (x == y)) ∧
    (u = .octetString ∨ u = .bitString → ∀ x y,
      t.resolve true n = .ok x ∧ t.resolve false n = .ok y ↔
        options.rule = .ber ∧ (∃ tag, t = .raw tag .ber (.constructed [x])) ∧
          x.tag = .universal n ∧ y = x) := by
  obtain rfl : u.number = n := by simpa using List.find?_some hu
  obtain ⟨tag, c, rfl, hc⟩ := (received_of_ofOctets h).exists_raw_of_mem ht
  refine ⟨?_, ?_, ?_⟩
  · rintro hne ⟨x, y, hx, hy⟩
    obtain ⟨-, -, ⟨rfl, -⟩ | ⟨rfl, -⟩ | ⟨rfl | rfl, -⟩⟩ := Tagged.resolve_both hx hy
    all_goals exact hne (by simp)
  · intro hset x y hx hy
    obtain ⟨-, -, ⟨-, rfl⟩ | ⟨-, rfl⟩ | ⟨hstring, -⟩⟩ := Tagged.resolve_both hx hy
    · exact not_beq_sequence_singleton x
    · exact not_beq_set_singleton x
    · rcases hset with rfl | rfl <;> simp at hstring
  · intro hstring x y
    constructor
    · rintro ⟨hx, hy⟩
      obtain ⟨rfl, htag, ⟨rfl, -⟩ | ⟨rfl, -⟩ | ⟨-, hr, rfl⟩⟩ := Tagged.resolve_both hx hy
      · simp at hstring
      · simp at hstring
      · exact ⟨hr, ⟨tag, by rw [hr]⟩, htag, rfl⟩
    · rintro ⟨hr, ⟨_, ht⟩, htag, rfl⟩
      obtain ⟨-, -, rfl⟩ := Tagged.raw.inj ht
      have hv := hc.valid_settled.1.1
      refine ⟨Tagged.resolve_explicit_eq_ok_iff.2 ⟨rfl, htag⟩, ?_⟩
      rw [resolve_raw, hr, UniversalType.ofContents_singleton hv htag hstring]
      rfl

theorem explicit_or_implicit_nestedOctets :
    ∃ t, ofOctets {} [0x30, 5, 0xA0, 3, 0x04, 1, 7] = .ok (.sequence [.tagged t]) ∧
      t.resolve true 4 = .ok (.octetString [7]) ∧ t.resolve false 4 = .ok (.octetString [7]) := by
  have h : ofOctets {} [0x30, 5, 0xA0, 3, 0x04, 1, 7] = .ok (.sequence
      [.tagged (.raw (.context 0) .ber (.constructed [.octetString [7]]))]) := by cbv
  have ht : tagged (.raw (.context 0) .ber (.constructed [.octetString [7]])) ∈
      (sequence [.tagged (.raw (.context 0) .ber (.constructed [.octetString [7]]))]).subvalues :=
    .tail _ (.head _)
  have hu : UniversalType.ofNumber? 4 = some .octetString := by decide
  obtain ⟨-, -, hboth⟩ := explicit_or_implicit h ht hu
  exact ⟨_, h, (hboth (.inl rfl) _ _).2 ⟨rfl, ⟨_, rfl⟩, rfl, rfl⟩⟩

end Value

end Tlv
