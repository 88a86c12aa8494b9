import Tlv.Proofs.Ambiguity
import Tlv.Proofs.Faults
import Tlv.Proofs.Spelling

/-! # Segments of strings

A constructed string is the segments one after the other. For a BIT STRING this holds of the bits
in use, since only the last segment may have unused ones. A segment may be in segments itself, and
how they are grouped makes no difference.
-/

namespace Tlv

namespace BitString

variable {a b c : BitString} {bs cs ds : List BitString}

/-! ## Bits -/

/-- The bits of an octet, the high one first. -/
def octetBits (a : UInt8) : List Bool :=
  (List.range 8).map fun i => a.toNat.testBit (7 - i)

def bits (b : BitString) : List Bool :=
  (b.data.flatMap octetBits).take b.length

@[simp] theorem length_octetBits (a : UInt8) : (octetBits a).length = 8 := by
  simp [octetBits]

theorem length_flatMap_octetBits (s : Octets) :
    (s.flatMap octetBits).length = s.length * 8 := by
  induction s with
  | nil => rfl
  | cons a s ih =>
    rw [List.flatMap_cons, List.length_append, length_octetBits, ih, List.length_cons]
    omega

@[simp] theorem length_bits (b : BitString) : b.bits.length = b.length := by
  rw [bits, List.length_take, length_flatMap_octetBits, length]
  omega

theorem unused_le_length (b : BitString) : b.unused ≤ b.data.length * 8 := by
  by_cases h : b.data = []
  · rw [b.unused_of_nil h]
    exact Nat.zero_le _
  · have := List.length_pos_of_ne_nil h
    have := b.unused_le
    omega

theorem bits_append (h : a.unused = 0) : (a.append b).bits = a.bits ++ b.bits := by
  have ha : a.length = (a.data.flatMap octetBits).length := by
    rw [length, h, length_flatMap_octetBits, Nat.sub_zero]
  have hlen : (a.append b).length = (a.data.flatMap octetBits).length + b.length := by
    have := b.unused_le_length
    change (a.data ++ b.data).length * 8 - b.unused = _
    rw [length_flatMap_octetBits, length, List.length_append]
    omega
  rw [bits, hlen, append, List.flatMap_append, List.take_length_add_append, bits, ha,
    List.take_length, bits]

example : (⟨4, [0xA5], by decide, by decide⟩ : BitString).bits = [true, false, true, false] := by
  decide

/-! ## Joined bit strings -/

theorem append_assoc : (a.append b).append c = a.append (b.append c) := by
  simp [append]

theorem unused_foldr_append : (bs.foldr append b).unused = b.unused := by
  induction bs with
  | nil => rfl
  | cons a bs ih => exact ih

theorem foldr_append_append : (bs.foldr append b).append c = bs.foldr append (b.append c) := by
  induction bs with
  | nil => rfl
  | cons a bs ih => rw [List.foldr_cons, append_assoc, ih, List.foldr_cons]

theorem bits_foldr_append (h : ∀ a ∈ bs, a.unused = 0) :
    (bs.foldr append b).bits = bs.flatMap bits ++ b.bits := by
  induction bs with
  | nil => rfl
  | cons a bs ih =>
    rw [List.forall_mem_cons] at h
    rw [List.foldr_cons, bits_append h.1, ih h.2, List.flatMap_cons, List.append_assoc]

/-- Segments are joined exactly if none before the last has unused bits. -/
theorem join_concat_eq_ok_iff :
    join (bs ++ [b]) = .ok c ↔ (∀ a ∈ bs, a.unused = 0) ∧ c = bs.foldr append b := by
  induction bs generalizing c with
  | nil => simp [join, eq_comm]
  | cons a bs ih =>
    obtain ⟨d, ds, hds⟩ := List.exists_cons_of_ne_nil (List.concat_ne_nil b bs)
    rw [List.cons_append, hds, join, ← hds, List.forall_mem_cons]
    split
    · rename_i ha
      simp only [except_map_eq_ok_iff, ih, List.foldr_cons]
      constructor
      · rintro ⟨_, ⟨h, rfl⟩, rfl⟩
        exact ⟨⟨ha, h⟩, rfl⟩
      · rintro ⟨⟨-, h⟩, rfl⟩
        exact ⟨_, ⟨h, rfl⟩, rfl⟩
    · rename_i ha
      constructor
      · intro h
        cases h
      · rintro ⟨⟨h, -⟩, -⟩
        exact absurd h ha

theorem exists_join_iff : (∃ b, join bs = .ok b) ↔ ∀ b ∈ bs.dropLast, b.unused = 0 := by
  rcases List.eq_nil_or_concat bs with rfl | ⟨bs, b, rfl⟩
  · exact iff_of_true ⟨empty, rfl⟩ (List.forall_mem_nil _)
  · simp only [List.concat_eq_append, join_concat_eq_ok_iff, List.dropLast_concat]
    exact ⟨fun ⟨_, h, _⟩ => h, fun h => ⟨_, h, rfl⟩⟩

theorem bits_join (h : join bs = .ok b) : b.bits = bs.flatMap bits := by
  rcases List.eq_nil_or_concat bs with rfl | ⟨bs, c, rfl⟩
  · cases h
    rfl
  · rw [List.concat_eq_append] at h ⊢
    obtain ⟨h0, rfl⟩ := join_concat_eq_ok_iff.1 h
    rw [bits_foldr_append h0, List.flatMap_append, List.flatMap_singleton]

theorem length_of_join (h : join bs = .ok b) : b.length = (bs.map length).sum := by
  rw [← length_bits, bits_join h, List.length_flatMap]
  simp

/-- A run of segments can be joined first, since its padding is that of its last segment. -/
theorem join_regroup (hne : cs ≠ []) :
    join (bs ++ cs ++ ds) = .ok c ↔ ∃ b, join cs = .ok b ∧ join (bs ++ b :: ds) = .ok c := by
  obtain ⟨cs, d, rfl⟩ := (List.eq_nil_or_concat cs).resolve_left hne
  rcases List.eq_nil_or_concat ds with rfl | ⟨ds, e, rfl⟩
  · simp only [List.concat_eq_append, List.append_nil, ← List.append_assoc, join_concat_eq_ok_iff,
      List.forall_mem_append, List.foldr_append]
    constructor
    · rintro ⟨⟨hb, hc⟩, rfl⟩
      exact ⟨_, ⟨hc, rfl⟩, hb, rfl⟩
    · rintro ⟨_, ⟨hc, rfl⟩, hb, rfl⟩
      exact ⟨⟨hb, hc⟩, rfl⟩
  · have hright (b : BitString) : bs ++ b :: (ds ++ [e]) = (bs ++ b :: ds) ++ [e] := by simp
    simp only [List.concat_eq_append, ← List.append_assoc, hright, join_concat_eq_ok_iff,
      List.forall_mem_append, List.forall_mem_cons, List.foldr_append, List.foldr_cons,
      List.foldr_nil]
    constructor
    · rintro ⟨⟨⟨⟨hb, hc⟩, hd, -⟩, hds⟩, rfl⟩
      refine ⟨_, ⟨hc, rfl⟩, ⟨hb, ?_, hds⟩, ?_⟩
      · rwa [unused_foldr_append]
      · rw [foldr_append_append]
    · rintro ⟨_, ⟨hc, rfl⟩, ⟨hb, hd, hds⟩, rfl⟩
      rw [unused_foldr_append] at hd
      refine ⟨⟨⟨⟨hb, hc⟩, hd, List.forall_mem_nil _⟩, hds⟩, ?_⟩
      rw [foldr_append_append]

end BitString

/-! ## Segments as values -/

section

variable {vs ws : List Value} {s : Octets} {bs : List BitString}

theorem joinOctets_eq_ok_iff :
    joinOctets vs = .ok s ↔ ∃ ss : List Octets, vs = ss.map .octetString ∧ s = ss.flatten := by
  constructor
  · intro h
    induction vs generalizing s with
    | nil =>
      cases h
      exact ⟨[], rfl, rfl⟩
    | cons v vs ih =>
      cases v with
      | octetString t =>
        obtain ⟨u, hu, rfl⟩ := except_map_eq_ok_iff.1 h
        obtain ⟨ss, rfl, rfl⟩ := ih hu
        exact ⟨t :: ss, rfl, rfl⟩
      | _ => cases h
  · rintro ⟨ss, rfl, rfl⟩
    exact joinOctets_map ss

theorem bitSegments_eq_ok_iff : bitSegments vs = .ok bs ↔ vs = bs.map .bitString := by
  constructor
  · intro h
    induction vs generalizing bs with
    | nil =>
      cases h
      rfl
    | cons v vs ih =>
      cases v with
      | bitString b =>
        obtain ⟨bs, hbs, rfl⟩ := except_map_eq_ok_iff.1 h
        rw [ih hbs, List.map_cons]
      | _ => cases h
  · rintro rfl
    exact bitSegments_map bs

theorem joinOctets_append_eq_ok_iff :
    joinOctets (vs ++ ws) = .ok s ↔
      ∃ t u, joinOctets vs = .ok t ∧ joinOctets ws = .ok u ∧ s = t ++ u := by
  simp only [joinOctets_eq_ok_iff, List.append_eq_map_iff]
  constructor
  · rintro ⟨_, ⟨ss, ts, rfl, rfl, rfl⟩, rfl⟩
    exact ⟨_, _, ⟨ss, rfl, rfl⟩, ⟨ts, rfl, rfl⟩, List.flatten_append⟩
  · rintro ⟨_, _, ⟨ss, rfl, rfl⟩, ⟨ts, rfl, rfl⟩, rfl⟩
    exact ⟨_, ⟨ss, ts, rfl, rfl, rfl⟩, List.flatten_append.symm⟩

theorem joinOctets_regroup {us : List Value} :
    joinOctets (us ++ vs ++ ws) = .ok s ↔
      ∃ t, joinOctets vs = .ok t ∧ joinOctets (us ++ .octetString t :: ws) = .ok s := by
  simp only [joinOctets_append_eq_ok_iff, joinOctets, except_map_eq_ok_iff]
  constructor
  · rintro ⟨_, b, ⟨a, t, ha, ht, rfl⟩, hb, rfl⟩
    exact ⟨t, ht, a, t ++ b, ha, ⟨b, hb, rfl⟩, List.append_assoc a t b⟩
  · rintro ⟨t, ht, a, _, ha, ⟨b, hb, rfl⟩, rfl⟩
    exact ⟨a ++ t, b, ⟨a, t, ha, ht, rfl⟩, hb, (List.append_assoc a t b).symm⟩

end

namespace UniversalType

open BitString (bits)

variable {rule : Rule} {u : UniversalType} {us vs ws : List Value} {v : Value}

/-- The type that the segments of a type have, if it can be in segments. -/
def segmentType? : UniversalType → Option UniversalType
  | bitString => some bitString
  | octetString | string _ => some octetString
  | _ => none

theorem ofSegments_eq_ok_iff {joined : Except Malformation Value} :
    u.ofSegments rule joined = .ok v ↔ rule = .ber ∧ joined = .ok v := by
  cases rule <;> simp [ofSegments, Rule.segmentedStrings]

section

variable {f : Octets → Value}

theorem ofSegments_octets_eq_ok_iff :
    u.ofSegments rule ((joinOctets vs).map f) = .ok v ↔
      rule = .ber ∧ ∃ s, joinOctets vs = .ok s ∧ f s = v :=
  ofSegments_eq_ok_iff.trans (and_congr_right' except_map_eq_ok_iff)

theorem ofSegments_octets_iff :
    u.ofSegments rule ((joinOctets vs).map f) = .ok v ↔
      rule = .ber ∧ ∃ ss : List Octets, vs = ss.map .octetString ∧ v = f ss.flatten := by
  rw [ofSegments_octets_eq_ok_iff]
  simp only [joinOctets_eq_ok_iff]
  constructor
  · rintro ⟨rfl, _, ⟨ss, rfl, rfl⟩, rfl⟩
    exact ⟨rfl, ss, rfl, rfl⟩
  · rintro ⟨rfl, ss, rfl, rfl⟩
    exact ⟨rfl, _, ⟨ss, rfl, rfl⟩, rfl⟩

theorem ofSegments_octets_regroup :
    u.ofSegments rule ((joinOctets (us ++ vs ++ ws)).map f) = .ok v ↔
      ∃ w, octetString.ofElements rule vs = .ok w ∧
        u.ofSegments rule ((joinOctets (us ++ w :: ws)).map f) = .ok v := by
  simp only [ofElements, ofSegments_octets_eq_ok_iff, joinOctets_regroup]
  constructor
  · rintro ⟨rfl, a, ⟨t, ht, ha⟩, rfl⟩
    exact ⟨_, ⟨rfl, t, ht, rfl⟩, rfl, a, ha, rfl⟩
  · rintro ⟨_, ⟨rfl, t, ht, rfl⟩, -, a, ha, rfl⟩
    exact ⟨rfl, a, ⟨t, ht, ha⟩, rfl⟩

end

theorem bitString_ofElements_eq_ok_iff :
    bitString.ofElements rule vs = .ok v ↔
      rule = .ber ∧ ∃ bs b, vs = bs.map .bitString ∧ BitString.join bs = .ok b ∧
        v = .bitString b := by
  refine ofSegments_eq_ok_iff.trans (and_congr_right' ?_)
  constructor
  · intro h
    obtain ⟨bs, hs, h⟩ := except_bind_eq_ok_iff.1 h
    obtain ⟨b, hb, h⟩ := except_bind_eq_ok_iff.1 h
    cases h
    exact ⟨bs, b, bitSegments_eq_ok_iff.1 hs, hb, rfl⟩
  · rintro ⟨bs, b, rfl, hb, rfl⟩
    refine except_bind_eq_ok_iff.2 ⟨bs, bitSegments_map bs, ?_⟩
    exact except_bind_eq_ok_iff.2 ⟨b, hb, rfl⟩

theorem bitString_ofElements_regroup (hne : vs ≠ []) :
    bitString.ofElements rule (us ++ vs ++ ws) = .ok v ↔
      ∃ w, bitString.ofElements rule vs = .ok w ∧
        bitString.ofElements rule (us ++ w :: ws) = .ok v := by
  simp only [bitString_ofElements_eq_ok_iff]
  constructor
  · rintro ⟨rfl, bs, c, hbs, hc, rfl⟩
    obtain ⟨_, es, rfl, hus, rfl⟩ := List.append_eq_map_iff.1 hbs
    obtain ⟨bs, cs, rfl, rfl, rfl⟩ := List.map_eq_append_iff.1 hus
    have hcs : cs ≠ [] := fun h => hne (by rw [h, List.map_nil])
    obtain ⟨b, hb, hc⟩ := (BitString.join_regroup hcs).1 hc
    refine ⟨_, ⟨rfl, cs, b, rfl, hb, rfl⟩, rfl, bs ++ b :: es, c, ?_, hc, rfl⟩
    rw [List.map_append, List.map_cons]
  · rintro ⟨_, ⟨rfl, cs, b, rfl, hb, rfl⟩, -, bs, c, hbs, hc, rfl⟩
    obtain ⟨bs, es, rfl, rfl, hes⟩ := List.append_eq_map_iff.1 hbs
    obtain ⟨a, es, rfl, ha, rfl⟩ := List.map_eq_cons_iff.1 hes
    cases ha
    have hcs : cs ≠ [] := fun h => hne (by rw [h, List.map_nil])
    refine ⟨rfl, bs ++ cs ++ es, c, ?_, (BitString.join_regroup hcs).2 ⟨b, hb, hc⟩, rfl⟩
    rw [List.map_append, List.map_append]

theorem ofElements_regroup {s : UniversalType} (hs : u.segmentType? = some s) (hne : vs ≠ []) :
    u.ofElements rule (us ++ vs ++ ws) = .ok v ↔
      ∃ w, s.ofElements rule vs = .ok w ∧ u.ofElements rule (us ++ w :: ws) = .ok v := by
  cases u with
  | bitString =>
    cases hs
    exact bitString_ofElements_regroup hne
  | octetString =>
    cases hs
    exact ofSegments_octets_regroup
  | string k =>
    cases hs
    exact ofSegments_octets_regroup
  | _ => cases hs

/-- Constructed strings are taken under BER alone, and then exactly if all elements are segments of
the right type, of which for a BIT STRING only the last may have unused bits. What they give is the
segments one after the other, a BIT STRING bit by bit. Whatever is refused is malformed input. To
put a run of segments into one makes no difference. -/
theorem joined_segments (rule : Rule) :
    (∀ vs v, octetString.ofElements rule vs = .ok v ↔
      rule = .ber ∧ ∃ ss : List Octets, vs = ss.map .octetString ∧ v = .octetString ss.flatten) ∧
    (∀ k vs v, (string k).ofElements rule vs = .ok v ↔
      rule = .ber ∧ ∃ ss : List Octets, vs = ss.map .octetString ∧ v = .string ⟨k, ss.flatten⟩) ∧
    (∀ vs, (∃ v, bitString.ofElements rule vs = .ok v) ↔
      rule = .ber ∧ ∃ bs : List BitString, vs = bs.map .bitString ∧
        ∀ b ∈ bs.dropLast, b.unused = 0) ∧
    (∀ (bs : List BitString) v, bitString.ofElements rule (bs.map .bitString) = .ok v →
      ∃ b, v = .bitString b ∧ b.bits = bs.flatMap bits ∧
        b.length = (bs.map BitString.length).sum) ∧
    (∀ (u : UniversalType) tag vs e,
      (Tagged.raw tag rule (.constructed vs)).resolve false u.number = .error e →
        e.kind = .malformedInput) ∧
    ∀ u s : UniversalType, u.segmentType? = some s → ∀ us vs ws, vs ≠ [] → ∀ v,
      u.ofElements rule (us ++ vs ++ ws) = .ok v ↔
        ∃ w, s.ofElements rule vs = .ok w ∧ u.ofElements rule (us ++ w :: ws) = .ok v := by
  refine ⟨fun vs v => ofSegments_octets_iff, fun k vs v => ofSegments_octets_iff, ?_, ?_, ?_,
    fun u s hs us vs ws hne v => ofElements_regroup hs hne⟩
  · intro vs
    simp only [bitString_ofElements_eq_ok_iff, ← BitString.exists_join_iff]
    constructor
    · rintro ⟨_, rfl, bs, b, rfl, hb, rfl⟩
      exact ⟨rfl, bs, rfl, b, hb⟩
    · rintro ⟨rfl, bs, rfl, b, hb⟩
      exact ⟨_, rfl, bs, b, rfl, hb, rfl⟩
  · intro bs v h
    obtain ⟨-, cs, b, hcs, hb, rfl⟩ := bitString_ofElements_eq_ok_iff.1 h
    obtain rfl : bs = cs := List.map_injective_iff.2 (fun _ _ h => Value.bitString.inj h) hcs
    exact ⟨b, rfl, BitString.bits_join hb, BitString.length_of_join hb⟩
  · intro u tag vs e h
    exact Tagged.kind_of_resolve_implicit (TypeEntry.ofNumber?_number u) h

theorem joined_segments_nestedBits :
    ∃ w, bitString.ofElements .ber
        [.bitString ⟨0, [0xA5], by decide, by decide⟩, .bitString .empty] = .ok w ∧
      bitString.ofElements .ber [w, .bitString ⟨4, [0xF0], by decide, by decide⟩] =
        .ok (.bitString ⟨4, [0xA5, 0xF0], by decide, by decide⟩) := by
  obtain ⟨-, -, -, -, -, hgroup⟩ := joined_segments .ber
  exact (hgroup bitString bitString rfl [] [_, _] [_] (List.cons_ne_nil _ _) _).1 rfl

end UniversalType

end Tlv
