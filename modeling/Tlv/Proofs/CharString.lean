import Tlv.StringType
import Tlv.Proofs.Utf8
import Tlv.Proofs.WideText

/-! # Text of character strings

Each kind has one of four codings, under which no two lists of octets spell the same text. Text in
the alphabet of a kind is encoded and comes back as it was. Octets come back as they were if their
text is in the alphabet, and only the codings of more than one octet leave octets without text.
-/

namespace Tlv

namespace StringType

variable {k : StringType} {s : Octets} {x : Char} {cs : List Char}

def WellFormed : StringType → Octets → Prop
  | utf8, s => Utf8.WellFormed s
  | bmp, s => Utf16.WellFormed s
  | universal, s => Utf32.WellFormed s
  | _, _ => True

/-- The number of the last character in the coding of the kind. It need not be in the alphabet. -/
def last : StringType → Nat
  | utf8 | bmp | universal => 0x10FFFF
  | _ => 0xFF

theorem toNat_le_last (x : Char) : x.toNat ≤ 0x10FFFF := by
  have h : x.toNat.isValidChar := x.valid
  rw [Nat.isValidChar] at h
  omega

/-- The first and the last numbers of the runs of characters that an alphabet consists of. -/
def ranges : StringType → List (Nat × Nat)
  | utf8 | universal => [(0x00, 0xD7FF), (0xE000, 0x10FFFF)]
  | bmp => [(0x00, 0xD7FF), (0xE000, 0xFFFF)]
  | t61 | graphic | general => [(0x00, 0xFF)]
  | ia5 => [(0x00, 0x7F)]
  | visible | utcTime | generalizedTime => [(0x20, 0x7E)]
  | numeric => [(0x20, 0x20), (0x30, 0x39)]
  | printable =>
    [(0x20, 0x20), (0x27, 0x29), (0x2B, 0x3A), (0x3D, 0x3D), (0x3F, 0x3F), (0x41, 0x5A),
      (0x61, 0x7A)]

theorem eq_iff_toNat_eq {y : Char} : x = y ↔ x.toNat = y.toNat :=
  Char.toNat_inj.symm

theorem le_iff_toNat_le {y : Char} : x ≤ y ↔ x.toNat ≤ y.toNat :=
  Char.le_def.trans UInt32.le_iff_toNat_le

theorem admits_iff : k.admits x = true ↔ ∃ r ∈ k.ranges, r.1 ≤ x.toNat ∧ x.toNat ≤ r.2 := by
  have hvalid : x.toNat < 0xD800 ∨ 0xDFFF < x.toNat ∧ x.toNat < 0x110000 := x.valid
  have hdigit : x.isDigit = true ↔ 0x30 ≤ x.toNat ∧ x.toNat ≤ 0x39 := Char.isDigit_iff_toNat
  have halpha : x.isAlpha = (decide (0x41 ≤ x.val ∧ x.val ≤ 0x5A) ||
      decide (0x61 ≤ x.val) && decide (x.val ≤ 0x7A)) := rfl
  have hletter : x.isAlpha = true ↔
      0x41 ≤ x.toNat ∧ x.toNat ≤ 0x5A ∨ 0x61 ≤ x.toNat ∧ x.toNat ≤ 0x7A := by
    simp [halpha, UInt32.le_iff_toNat_le]
  cases k with
  | utf8 | universal =>
    simp [admits, ranges]
    omega
  | bmp =>
    simp [admits, ranges]
    omega
  | t61 | graphic | general => simp [admits, ranges]
  | ia5 =>
    simp [admits, ranges]
    omega
  | visible | utcTime | generalizedTime => simp [admits, ranges, le_iff_toNat_le]
  | numeric =>
    simp [admits, ranges, hdigit, eq_iff_toNat_eq]
    omega
  | printable =>
    simp [admits, ranges, Char.isAlphanum, hdigit, hletter, printablePunctuation,
      eq_iff_toNat_eq]
    omega

theorem toNat_le_of_admits (h : k.admits x = true) : x.toNat ≤ k.last := by
  have hlast : ∀ r ∈ k.ranges, r.2 ≤ k.last := by cases k <;> decide
  obtain ⟨r, hr, -, hx⟩ := admits_iff.1 h
  exact Nat.le_trans hx (hlast r hr)

theorem toNat_ofNat_octet (a : UInt8) : (Char.ofNat a.toNat).toNat = a.toNat := by
  have hlt := a.toNat_lt
  exact Utf8.toNat_val_ofNat (by grind)

theorem map_ofNat_eq_iff : s.map (fun a => Char.ofNat a.toNat) = cs ↔
    (∀ x ∈ cs, x.toNat ≤ 0xFF) ∧ s = cs.map fun x => UInt8.ofNat x.toNat := by
  constructor
  · rintro rfl
    constructor
    · intro x hx
      obtain ⟨a, _, rfl⟩ := List.mem_map.1 hx
      have := a.toNat_lt
      rw [toNat_ofNat_octet]
      omega
    · simp [Function.comp_def, toNat_ofNat_octet]
  · rintro ⟨hcs, rfl⟩
    rw [List.map_map]
    refine (List.map_congr_left fun x hx => ?_).trans (List.map_id cs)
    have hx : (UInt8.ofNat x.toNat).toNat = x.toNat :=
      UInt8.toNat_ofNat_of_lt' (Nat.lt_succ_of_le (hcs x hx))
    rw [Function.comp_apply, hx, Char.ofNat_toNat, id]

theorem decode_eq_ok_iff :
    k.decode s = .ok cs ↔ (∀ x ∈ cs, x.toNat ≤ k.last) ∧ s = k.encode cs := by
  have hlast : ∀ x ∈ cs, x.toNat ≤ 0x10FFFF := fun x _ => toNat_le_last x
  cases k with
  | utf8 => exact Utf8.decode_eq_ok_iff.trans (and_iff_right hlast).symm
  | bmp => exact Utf16.decode_eq_ok_iff.trans (and_iff_right hlast).symm
  | universal => exact Utf32.decode_eq_ok_iff.trans (and_iff_right hlast).symm
  | _ => exact (Iff.of_eq (Except.ok.injEq _ _)).trans map_ofNat_eq_iff

theorem exists_decode_iff : (∃ cs, k.decode s = .ok cs) ↔ k.WellFormed s := by
  cases k with
  | utf8 => exact Utf8.exists_decode_iff
  | bmp => exact Utf16.exists_decode_iff
  | universal => exact Utf32.exists_decode_iff
  | _ => exact iff_of_true ⟨_, rfl⟩ trivial

end StringType

namespace CharString

variable {k : StringType} {o : Octets} {s : CharString} {t : String}

theorem ofText_eq_ok_iff :
    ofText k t = .ok s ↔ (∀ x ∈ t.toList, k.admits x = true) ∧ s = ⟨k, k.encode t.toList⟩ := by
  rw [ofText]
  split
  case h_1 x h =>
    refine iff_of_false (by rintro ⟨⟩) fun hall => ?_
    have hx := List.find?_some h
    rw [hall.1 x (List.mem_of_find?_eq_some h)] at hx
    cases hx
  case h_2 h =>
    have hall : ∀ x ∈ t.toList, k.admits x = true := by simpa using h
    rw [Except.ok.injEq, eq_comm, and_iff_right hall]

theorem text_eq_ok_iff :
    text ⟨k, o⟩ = .ok t ↔ (∀ x ∈ t.toList, x.toNat ≤ k.last) ∧ o = k.encode t.toList := by
  rw [← StringType.decode_eq_ok_iff, text]
  split
  case h_1 cs h =>
    rw [h, Except.ok.injEq, Except.ok.injEq]
    constructor
    · rintro rfl
      exact String.toList_ofList.symm
    · rintro rfl
      exact String.ofList_toList
  case h_2 e h =>
    rw [h]
    exact iff_of_false (by rintro ⟨⟩) (by rintro ⟨⟩)

/-- Text and octets of a kind are in correspondence. Text is taken exactly if all its characters are
in the alphabet, and then comes back; octets come back whenever their text is taken. No two lists of
octets spell the same text, and some spell none only under UTF-8, UTF-16 and UTF-32, namely those
that are not well-formed. -/
theorem lossless_text (k : StringType) :
    (∀ t, (∃ s, ofText k t = .ok s) ↔ ∀ x ∈ t.toList, k.admits x = true) ∧
    (∀ t s, ofText k t = .ok s → s.text = .ok t) ∧
    (∀ o t s, text ⟨k, o⟩ = .ok t → ofText k t = .ok s → s.octets = o) ∧
    (∀ o o' t, text ⟨k, o⟩ = .ok t → text ⟨k, o'⟩ = .ok t → o = o') ∧
    ∀ o, (∃ t, text ⟨k, o⟩ = .ok t) ↔ k.WellFormed o := by
  refine ⟨?_, ?_, ?_, ?_, ?_⟩
  · intro t
    simp only [ofText_eq_ok_iff]
    exact ⟨fun ⟨_, h, _⟩ => h, fun h => ⟨_, h, rfl⟩⟩
  · intro t s h
    obtain ⟨hadmits, rfl⟩ := ofText_eq_ok_iff.1 h
    exact text_eq_ok_iff.2 ⟨fun x hx => StringType.toNat_le_of_admits (hadmits x hx), rfl⟩
  · intro o t s ht hs
    rw [(ofText_eq_ok_iff.1 hs).2, (text_eq_ok_iff.1 ht).2]
  · intro o o' t h h'
    rw [(text_eq_ok_iff.1 h).2, (text_eq_ok_iff.1 h').2]
  · intro o
    simp only [text_eq_ok_iff, ← StringType.exists_decode_iff, ← StringType.decode_eq_ok_iff]
    constructor
    · rintro ⟨t, h⟩
      exact ⟨t.toList, h⟩
    · rintro ⟨cs, h⟩
      exact ⟨String.ofList cs, by rwa [String.toList_ofList]⟩

/-- A character of one unit comes back from text and from octets. One of two units is read, though
it is not in the alphabet. -/
theorem lossless_text_euro :
    (∃ s, ofText .bmp "€" = .ok s ∧ s.text = .ok "€" ∧ s.octets = [0x20, 0xAC]) ∧
      ofText .bmp "😀" = .error (.invalidArgument (.character '😀' "BMPString")) ∧
      Utf16.WellFormed [0xD8, 0x3D, 0xDE, 0x00] := by
  obtain ⟨htaken, hback, hoctets, -, hspelled⟩ := lossless_text .bmp
  obtain ⟨s, hs⟩ := (htaken "€").2 (by simp [StringType.admits])
  have hread : text ⟨.bmp, [0x20, 0xAC]⟩ = .ok "€" := by decide +kernel
  refine ⟨⟨s, hs, hback _ _ hs, hoctets _ _ _ hread hs⟩, by decide +kernel, (hspelled _).1 ⟨"😀", ?_⟩⟩
  decide +kernel

end CharString

end Tlv
