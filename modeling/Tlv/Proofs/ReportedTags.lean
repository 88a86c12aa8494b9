import Tlv.Proofs.Acceptance
import Tlv.Proofs.Ambiguity
import Tlv.Proofs.KeptWidths

/-! # Reported tags

A value reports a tag, and whether its encoding is constructed, without being encoded. The report is
what its octets begin with under every rule, however deep the base of an implicit tag is. Read from
octets, a value reports the identifier that they begin with, except that a string which came in
segments is reported as primitive, since it is written in one piece.
-/

namespace Tlv

/-! ## Written values -/

theorem Measured.identifier_of_ofElements? {i : Identifier} {indefinite : Bool}
    {ms : List Measured} {m : Measured} (h : ofElements? i indefinite ms = some m) :
    m.identifier = ⟨i.tag, true⟩ := by
  obtain ⟨kept, -, h⟩ := Option.bind_eq_some_iff.1 h
  cases h
  rfl

theorem Plan.identifier_of_measured? {m : Measured} :
    ∀ {p : Plan}, p.measured? = some m → m.identifier = p.encoding.identifier
  | .primitive _ _, h => by
    cases h
    rfl
  | .constructed _ _ _, h => by
    obtain ⟨ms, -, h⟩ := Option.bind_eq_some_iff.1 h
    exact Measured.identifier_of_ofElements? h
  | .sorted _ _ _, h => by
    obtain ⟨ms, -, h⟩ := Option.bind_eq_some_iff.1 h
    exact Measured.identifier_of_ofElements? h
  | .withTag tag p, h => by
    obtain ⟨m, hm, h⟩ := Option.bind_eq_some_iff.1 h
    cases h
    rw [Measured.identifier_withTag, identifier_of_measured? hm, encoding,
      Encoding.identifier_withTag]

namespace Value

variable (rule : Rule) (v : Value)

theorem identifier_octets_prefix : v.identifier.octets <+: v.octets rule := by
  rw [octets, Encoding.octets_eq_frame, identifier_encoding]
  exact List.prefix_append _ _

theorem reads_identifier_octets (reader : Rule) :
    ∃ t, Reads (Identifier.read reader (v.octets rule)) v.identifier t := by
  obtain ⟨t, ht⟩ := v.identifier_octets_prefix rule
  rw [← ht]
  exact ⟨t, Identifier.reads_octets reader v.identifier t⟩

end Value

/-! ## Read values -/

/-- The values of the type may come in segments. -/
def UniversalType.IsString : UniversalType → Prop
  | bitString | octetString | string _ => True
  | _ => False

def Tag.IsString (tag : Tag) : Prop := ∃ u : UniversalType, u.IsString ∧ tag = u.tag

/-- The value reports this identifier, apart from a string that came in segments. -/
structure Value.Reports (v : Value) (i : Identifier) : Prop where
  tag_eq : v.tag = i.tag
  constructed_iff : v.identifier.constructed = true ↔ i.constructed = true ∧ ¬i.tag.IsString

theorem UniversalType.isString_tag_iff {u : UniversalType} : u.tag.IsString ↔ u.IsString := by
  constructor
  · rintro ⟨w, hw, h⟩
    rwa [tag_injective h]
  · intro h
    exact ⟨u, h, rfl⟩

/-- Types read contents as values of their own tag, and only strings take contents in both forms. -/
theorem UniversalType.Gives.reports {rule : Rule} {u : UniversalType} {c : Contents} {v : Value}
    (h : u.Gives rule c v) : v.Reports ⟨u.tag, c.isConstructed⟩ := by
  refine ⟨?_, ?_⟩
  · cases h <;> rfl
  · rw [isString_tag_iff]
    cases h <;> simp [Value.identifier, Contents.isConstructed, IsString]

theorem Value.reports_of_ofContents {tag : Tag} {hn : tag ≠ .endOfContents} {rule : Rule}
    {c : Contents} {v : Value} (h : ofContents tag hn rule c = .ok v) :
    v.Reports ⟨tag, c.isConstructed⟩ := by
  rcases ofContents_cases h with ⟨hcls, rfl⟩ | ⟨n, rfl, rfl⟩ | ⟨u, rfl, hg⟩
  · refine ⟨rfl, (and_iff_left ?_).symm⟩
    rintro ⟨u, -, rfl⟩
    exact hcls rfl
  · refine ⟨rfl, (and_iff_left ?_).symm⟩
    rintro ⟨u, -, hu⟩
    have hnum : n.number = u.number := congrArg Tag.number hu
    cases n.unassigned.symm.trans (hnum ▸ u.ofNumber?_number)
  · exact hg.reports

namespace Wire

variable {rule : Rule} {options : ReaderOptions} {d : Nat} {w : Wire} {v : Value}

def identifier : Wire → Identifier
  | primitive h _ => ⟨h.tag, false⟩
  | constructed h _ => ⟨h.tag, true⟩

theorem reads_identifier (ha : w.Admitted rule) (t : Octets) :
    ∃ u, Reads (Identifier.read rule (w.octets ++ t)) w.identifier u := by
  cases w with
  | primitive h s =>
    rw [octets, Header.frame, List.append_assoc]
    exact ⟨_, Header.reads_identifierOctets ha.1 false _⟩
  | constructed h ws =>
    rw [octets, Header.frame, List.append_assoc]
    exact ⟨_, Header.reads_identifierOctets ha.1 true _⟩

theorem Denotes.reports (h : w.Denotes rule v) : v.Reports w.identifier := by
  cases h with
  | primitive _ hv => exact Value.reports_of_ofContents hv
  | constructed _ _ hv => exact Value.reports_of_ofContents hv

theorem Taken.exists_reports (h : w.Taken options d v) (t : Octets) :
    ∃ i u, Reads (Identifier.read options.rule (w.octets ++ t)) i u ∧ v.Reports i := by
  obtain ⟨u, hu⟩ := w.reads_identifier h.admitted t
  exact ⟨w.identifier, u, hu, h.denotes.reports⟩

end Wire

/-- At any depth, a value reports the identifier that was read for it. -/
theorem Reader.exists_reports {options : ReaderOptions} {d : Nat} {buffer s t : Octets} {v : Value}
    (h : Reads (value options d buffer s) v t) :
    ∃ i u, Reads (Identifier.read options.rule s) i u ∧ v.Reports i := by
  obtain ⟨w, rfl, hw⟩ := Wire.reads_value_iff.1 h
  exact hw.exists_reports t

theorem Value.exists_reports {options : ReaderOptions} {s : Octets} {v : Value}
    (h : ofOctets options s = .ok v) :
    ∃ i u, Reads (Identifier.read options.rule s) i u ∧ v.Reports i := by
  obtain ⟨w, rfl, hw⟩ := ofOctets_eq_ok_iff.1 h
  have hreports := hw.exists_reports []
  rw [List.append_nil] at hreports
  exact hreports

namespace Value

/-- The reported tag is the one on the wire. The encoding of a value has it under each rule, from
the first step of putting the encoding together to the octets, which begin with it and are read so;
a tagged object is encoded as constructed exactly if it says so. Read under any options, at any
depth, a value reports the tag of the identifier octets at hand and their form, except that strings
are reported as primitive. -/
theorem reported_identifiers :
    (∀ rule (v : Value), (v.encoding rule).identifier = v.identifier ∧
      (∀ m, (v.plan rule).measured? = some m → m.identifier = v.identifier) ∧
      v.identifier.octets <+: v.octets rule ∧
      ∀ reader, ∃ t, Reads (Identifier.read reader (v.octets rule)) v.identifier t) ∧
    (∀ rule (t : Tagged), (t.encoding rule).identifier = ⟨t.tag, t.isConstructed⟩) ∧
    (∀ options d buffer s v t, Reads (Reader.value options d buffer s) v t →
      ∃ i u, Reads (Identifier.read options.rule s) i u ∧ v.Reports i) ∧
    ∀ options s v, ofOctets options s = .ok v →
      ∃ i u, Reads (Identifier.read options.rule s) i u ∧ v.Reports i := by
  refine ⟨fun rule v => ⟨v.identifier_encoding rule, fun m hm => ?_,
    v.identifier_octets_prefix rule, v.reads_identifier_octets rule⟩,
    fun rule t => t.identifier_encoding rule, fun _ _ _ _ _ _ => Reader.exists_reports,
    fun _ _ _ => exists_reports⟩
  rw [Plan.identifier_of_measured? hm, encoding_plan, identifier_encoding]

def retaggedTwice : Value :=
  .tagged (.implicit ⟨.privateUse, 31⟩
    (.tagged (.implicit ⟨.context, 0⟩ (.sequence [.null]))))

def segmentedOctets : Octets := [0x24, 0x80, 0x04, 0x01, 0x05, 0x00, 0x00]

/-- The outer of two implicit tags, with the form of the base, and a string in segments. -/
theorem reported_identifiers_retaggedTwice :
    (∃ m, (retaggedTwice.plan .ber).measured? = some m ∧
      m.identifier = ⟨⟨.privateUse, 31⟩, true⟩) ∧
    [0xFF, 0x1F] <+: retaggedTwice.octets .ber ∧
    ofOctets {} segmentedOctets = .ok (.octetString [0x05]) ∧
    (∃ i u, Reads (Identifier.read .ber segmentedOctets) i u ∧
      (octetString [0x05]).Reports i) ∧
    Reads (Reader.value {} 1 segmentedOctets segmentedOctets) (.octetString [0x05]) [] ∧
    ∃ i u, Reads (Identifier.read .ber segmentedOctets) i u ∧
      (octetString [0x05]).Reports i := by
  obtain ⟨hwritten, -, hdeep, hread⟩ := reported_identifiers
  obtain ⟨-, hkept, hprefix, -⟩ := hwritten .ber retaggedTwice
  have hidentifier : retaggedTwice.identifier.octets = [0xFF, 0x1F] := by cbv
  have hfits : (retaggedTwice.plan .ber).encoding.contents.length < 2 ^ 64 := by decide
  obtain ⟨m, hm, -⟩ := (retaggedTwice.plan .ber).exists_measured? hfits
  have hoctets : ofOctets {} segmentedOctets = .ok (.octetString [0x05]) := by cbv
  have hvalue : Reads (Reader.value {} 1 segmentedOctets segmentedOctets)
      (.octetString [0x05]) [] := ⟨by decide, by cbv⟩
  exact ⟨⟨m, hm, hkept m hm⟩, hidentifier ▸ hprefix, hoctets, hread _ _ _ hoctets, hvalue,
    hdeep _ _ _ _ _ _ hvalue⟩

end Value

end Tlv
