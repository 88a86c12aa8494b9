import Tlv.Certificate.Time
import Tlv.Proofs.CharString

/-! # Years of two digits

The year of a UTCTime is what the reader of decimal numbers makes of the first two octets that the
text has in UTF-8. What it takes is written in characters of one octet, so the year stands in the
first two octets of the contents. They are two digits, but since the reader allows a sign, a plus
sign and one digit are taken as well. All other times are refused.
-/

namespace Tlv

namespace Utf8

variable {n : Nat} {cs ds : List Char}

/-- The characters that the first `n` octets of a text are, unless it has fewer octets or these end
within a character. -/
def leading? (n : Nat) (cs : List Char) : Option (List Char) :=
  if n ≤ (encode cs).length then
    match decode ((encode cs).take n) with
    | .ok ds => some ds
    | .error _ => none
  else none

theorem encode_prefix_iff : encode ds <+: encode cs ↔ ds <+: cs := by
  constructor
  · intro h
    induction ds generalizing cs with
    | nil => exact List.nil_prefix
    | cons x ds ih =>
      obtain ⟨t, ht⟩ := h
      rw [encode, List.flatMap_cons, List.append_assoc] at ht
      cases cs with
      | nil => simp [encode, String.utf8EncodeChar_ne_nil] at ht
      | cons y cs =>
        obtain ⟨rfl, hds⟩ := utf8EncodeChar_append_inj ht
        exact (List.prefix_cons_inj x).2 (ih ⟨t, hds⟩)
  · rintro ⟨es, rfl⟩
    exact ⟨encode es, by simp [encode]⟩

theorem leading?_eq_some_iff : leading? n cs = some ds ↔ ds <+: cs ∧ (encode ds).length = n := by
  have htake : leading? n cs = some ds ↔
      n ≤ (encode cs).length ∧ decode ((encode cs).take n) = .ok ds := by
    rw [leading?, Option.ite_none_right_eq_some]
    cases decode ((encode cs).take n) <;> simp
  rw [htake, decode_eq_ok_iff, ← encode_prefix_iff]
  constructor
  · rintro ⟨hn, hds⟩
    rw [← hds, List.length_take, Nat.min_eq_left hn]
    exact ⟨List.take_prefix _ _, rfl⟩
  · rintro ⟨hds, rfl⟩
    exact ⟨hds.length_le, (List.prefix_iff_eq_take.1 hds).symm⟩

end Utf8

namespace Decimal

variable {bound m n : Nat} {a b c : Char} {cs : List Char}

theorem isDigit_of_foldlM_push (h : cs.foldlM push m = some n) : ∀ c ∈ cs, c.isDigit = true := by
  induction cs generalizing m with
  | nil => exact List.forall_mem_nil _
  | cons c cs ih =>
    rw [List.foldlM_cons, push] at h
    split at h
    case isTrue hc => exact List.forall_mem_cons.2 ⟨hc, ih h⟩
    case isFalse => cases h

theorem isDigit_or_plus_of_read? (h : read? bound cs = some n) :
    ∀ c ∈ cs, c.isDigit = true ∨ c = '+' := by
  have digits {ds : List Char} (hd : digits? ds = some n) : ∀ c ∈ ds, c.isDigit = true := by
    cases ds with
    | nil => cases hd
    | cons => exact isDigit_of_foldlM_push hd
  rw [read?, Option.filter_eq_some_iff] at h
  obtain ⟨h, -⟩ := h
  split at h
  case isTrue hplus =>
    obtain ⟨cs, rfl⟩ := List.head?_eq_some_iff.1 hplus
    exact List.forall_mem_cons.2 ⟨.inr rfl, fun c hc => .inl (digits h c hc)⟩
  case isFalse => exact fun c hc => .inl (digits h c hc)

theorem utf8Size_of_isDigit (h : c.isDigit = true) : c.utf8Size = 1 := by
  simp [Char.isDigit, UInt32.le_iff_toNat_le] at h
  simp [Char.utf8Size, UInt32.le_iff_toNat_le]
  omega

theorem length_encode_of_read? (h : read? bound cs = some n) :
    (Utf8.encode cs).length = cs.length := by
  have hsize : ∀ c ∈ cs, (String.utf8EncodeChar c).length = 1 := by
    intro c hc
    rw [String.length_utf8EncodeChar]
    rcases isDigit_or_plus_of_read? h c hc with hdigit | rfl
    · exact utf8Size_of_isDigit hdigit
    · rfl
  rw [Utf8.encode, List.length_flatMap, List.map_congr_left hsize]
  simp

/-- Two characters are read as a number if they are two digits, or one behind a plus sign. -/
theorem read?_pair_eq_some_iff :
    read? bound [a, b] = some n ↔
      (a.isDigit = true ∧ n = (a.toNat - '0'.toNat) * 10 + (b.toNat - '0'.toNat) ∨
        a = '+' ∧ n = b.toNat - '0'.toNat) ∧ b.isDigit = true ∧ n < bound := by
  by_cases ha : a = '+'
  · subst ha
    by_cases hb : b.isDigit <;> simp [read?, digits?, push, hb]
    omega
  · by_cases hd : a.isDigit <;> by_cases hb : b.isDigit <;>
      simp [read?, digits?, push, ha, hd, hb]
    omega

end Decimal

namespace Certificate.Time

variable {n : Nat} {text : String}

/-! ## Texts -/

theorem shortYear?_eq_some_iff : shortYear? text = some n ↔
    ∃ a b cs, text.toList = a :: b :: cs ∧ Decimal.read? 100 [a, b] = some n := by
  rw [shortYear?]
  split
  · rename_i a b cs h
    simp [h]
  · rename_i h
    refine iff_of_false nofun ?_
    rintro ⟨a, b, cs, hcs, -⟩
    exact h a b cs hcs

theorem shortYear?_eq (text : String) :
    shortYear? text = (Utf8.leading? 2 text.toList).bind (Decimal.read? UInt32.size) := by
  have hbound {a b : Char} {n : Nat} :
      Decimal.read? 100 [a, b] = some n ↔ Decimal.read? UInt32.size [a, b] = some n := by
    simp only [Decimal.read?_pair_eq_some_iff, UInt32.size]
    simp [Char.isDigit, UInt32.le_iff_toNat_le]
    omega
  ext n
  simp only [shortYear?_eq_some_iff, Option.bind_eq_some_iff, Utf8.leading?_eq_some_iff, hbound]
  constructor
  · rintro ⟨a, b, cs, hcs, h⟩
    refine ⟨[a, b], ⟨⟨cs, hcs.symm⟩, ?_⟩, h⟩
    rw [Decimal.length_encode_of_read? h]
    rfl
  · rintro ⟨ds, ⟨⟨cs, hcs⟩, hlen⟩, h⟩
    rw [Decimal.length_encode_of_read? h] at hlen
    obtain ⟨a, b, rfl⟩ := List.length_eq_two.1 hlen
    exact ⟨a, b, cs, hcs.symm, h⟩

/-! ## Octets -/

def IsDigit (a : UInt8) : Prop := 0x30 ≤ a ∧ a ≤ 0x39

def plusSign : UInt8 := 0x2B

/-- The octets that are taken for a year of a century, and the year. -/
inductive ShortYear : UInt8 → UInt8 → Nat → Prop where
  | digits {a b : UInt8} (ha : IsDigit a) (hb : IsDigit b) :
      ShortYear a b ((a.toNat - 0x30) * 10 + (b.toNat - 0x30))
  | signed {b : UInt8} (hb : IsDigit b) : ShortYear plusSign b (b.toNat - 0x30)

variable {a b : UInt8} {n : Nat} {o s : Octets} {full : String}

theorem isDigit_ofNat_iff : (Char.ofNat a.toNat).isDigit = true ↔ IsDigit a := by
  simp [Char.isDigit, IsDigit, UInt32.le_iff_toNat_le, UInt8.le_iff_toNat_le,
    StringType.toNat_ofNat_octet]

theorem ofNat_eq_plus_iff : Char.ofNat a.toNat = '+' ↔ a = plusSign := by
  rw [← Char.toNat_inj, ← UInt8.toNat_inj, StringType.toNat_ofNat_octet]
  rfl

theorem read?_octets_eq_some_iff :
    Decimal.read? 100 [Char.ofNat a.toNat, Char.ofNat b.toNat] = some n ↔ ShortYear a b n := by
  rw [Decimal.read?_pair_eq_some_iff, isDigit_ofNat_iff, isDigit_ofNat_iff, ofNat_eq_plus_iff,
    StringType.toNat_ofNat_octet, StringType.toNat_ofNat_octet]
  constructor
  · rintro ⟨⟨ha, rfl⟩ | ⟨rfl, rfl⟩, hb, -⟩
    · exact .digits ha hb
    · exact .signed hb
  · rintro (⟨ha, hb⟩ | hb)
    · refine ⟨.inl ⟨ha, rfl⟩, hb, ?_⟩
      simp only [IsDigit, UInt8.le_iff_toNat_le, UInt8.reduceToNat] at ha hb
      omega
    · refine ⟨.inr ⟨rfl, rfl⟩, hb, ?_⟩
      simp only [IsDigit, UInt8.le_iff_toNat_le, UInt8.reduceToNat] at hb
      omega

/-- Octets are read as the first characters of Unicode, one by one. -/
def octetText (o : Octets) : String := String.ofList (o.map fun a => Char.ofNat a.toNat)

theorem text_utc (o : Octets) : (utc o).text = .ok (octetText o) := rfl

theorem shortYear?_octetText_eq_some_iff :
    shortYear? (octetText o) = some n ↔ ∃ a b s, o = a :: b :: s ∧ ShortYear a b n := by
  rw [shortYear?_eq_some_iff, octetText, String.toList_ofList]
  constructor
  · rintro ⟨x, y, cs, hcs, h⟩
    obtain ⟨a, s, rfl, rfl, hs⟩ := List.map_eq_cons_iff.1 hcs
    obtain ⟨b, s, rfl, rfl, -⟩ := List.map_eq_cons_iff.1 hs
    exact ⟨a, b, s, rfl, read?_octets_eq_some_iff.1 h⟩
  · rintro ⟨a, b, s, rfl, h⟩
    exact ⟨_, _, _, rfl, read?_octets_eq_some_iff.2 h⟩

theorem fullYearText_utc_eq_ok_iff :
    (utc o).fullYearText = .ok full ↔ ∃ a b s year, o = a :: b :: s ∧ ShortYear a b year ∧
      full = (if year < 50 then "20" else "19") ++ octetText o := by
  have hyear : (utc o).fullYearText = .ok full ↔ ∃ year, shortYear? (octetText o) = some year ∧
      full = (if year < 50 then "20" else "19") ++ octetText o := by
    cases h : shortYear? (octetText o) <;>
      simp [fullYearText, text_utc, bind, Except.bind, h, eq_comm]
  simp only [hyear, shortYear?_octetText_eq_some_iff]
  constructor
  · rintro ⟨year, ⟨a, b, s, ho, h⟩, hfull⟩
    exact ⟨a, b, s, year, ho, h, hfull⟩
  · rintro ⟨a, b, s, year, ho, h, hfull⟩
    exact ⟨year, ⟨a, b, s, ho, h⟩, hfull⟩

theorem fullYearText_utc_eq_error (h : ¬∃ a b s year, o = a :: b :: s ∧ ShortYear a b year) :
    (utc o).fullYearText = .error (.malformed (.invalidUtcTime (octetText o))) := by
  have hnone : shortYear? (octetText o) = none := by
    apply Option.eq_none_iff_forall_ne_some.2
    intro year hyear
    obtain ⟨a, b, s, ho, hshort⟩ := shortYear?_octetText_eq_some_iff.1 hyear
    exact h ⟨a, b, s, year, ho, hshort⟩
  simp [fullYearText, text_utc, bind, Except.bind, hnone]

theorem isDigit_of_shortYear (h : ShortYear a b n) (ha : a ≠ plusSign) : IsDigit a ∧ IsDigit b := by
  cases h with
  | digits ha hb => exact ⟨ha, hb⟩
  | signed _ => exact absurd rfl ha

/-- The text begins with a year of four digits. -/
def StartsWithYear (full : String) : Prop :=
  ∃ year rest, full.toList = year ++ rest ∧ year.length = 4 ∧ ∀ c ∈ year, c.isDigit = true

theorem startsWithYear_of_isDigit {century : String} (hc : century = "20" ∨ century = "19")
    (ha : IsDigit a) (hb : IsDigit b) : StartsWithYear (century ++ octetText (a :: b :: s)) := by
  have hcentury : century.toList.length = 2 ∧ ∀ c ∈ century.toList, c.isDigit = true := by
    rcases hc with rfl | rfl <;> simp
  refine ⟨century.toList ++ [Char.ofNat a.toNat, Char.ofNat b.toNat],
    s.map fun a => Char.ofNat a.toNat, ?_, ?_, ?_⟩
  · simp [octetText]
  · simp [hcentury.1]
  · simp only [List.forall_mem_append, List.forall_mem_cons, isDigit_ofNat_iff]
    exact ⟨hcentury.2, ha, hb, List.forall_mem_nil _⟩

/-- The full year of a UTCTime. The text is that of the octets, and it is taken exactly if it begins
with two digits, or with a plus sign and a digit; then it stands unchanged behind the digits of a
century, which that year alone selects. All other times are malformed. Unless a plus sign comes
first, two digits are what is asked for, and the result begins with a year of four digits. -/
theorem full_years (o : Octets) :
    (utc o).text = .ok (octetText o) ∧
    (∀ full, (utc o).fullYearText = .ok full ↔ ∃ a b s year, o = a :: b :: s ∧
      ShortYear a b year ∧ full = (if year < 50 then "20" else "19") ++ octetText o) ∧
    ((¬∃ a b s year, o = a :: b :: s ∧ ShortYear a b year) →
      (utc o).fullYearText = .error (.malformed (.invalidUtcTime (octetText o)))) ∧
    (o.head? ≠ some plusSign →
      ((∃ full, (utc o).fullYearText = .ok full) ↔
        ∃ a b s, o = a :: b :: s ∧ IsDigit a ∧ IsDigit b) ∧
      ∀ full, (utc o).fullYearText = .ok full → StartsWithYear full) ∧
    shortYear? (octetText o) =
      (Utf8.leading? 2 (octetText o).toList).bind (Decimal.read? UInt32.size) := by
  refine ⟨rfl, fun full => fullYearText_utc_eq_ok_iff, fullYearText_utc_eq_error, fun hplus => ?_,
    shortYear?_eq _⟩
  simp only [fullYearText_utc_eq_ok_iff]
  refine ⟨⟨?_, ?_⟩, ?_⟩
  · rintro ⟨_, a, b, s, year, rfl, h, -⟩
    exact ⟨a, b, s, rfl, isDigit_of_shortYear h fun ha => hplus (congrArg some ha)⟩
  · rintro ⟨a, b, s, rfl, ha, hb⟩
    exact ⟨_, a, b, s, _, rfl, .digits ha hb, rfl⟩
  · rintro _ ⟨a, b, s, year, rfl, h, rfl⟩
    obtain ⟨ha, hb⟩ := isDigit_of_shortYear h fun ha => hplus (congrArg some ha)
    exact startsWithYear_of_isDigit (ite_eq_or_eq _ _ _) ha hb

def lastSecond : Octets :=
  [0x34, 0x39, 0x31, 0x32, 0x33, 0x31, 0x32, 0x33, 0x35, 0x39, 0x35, 0x39, 0x5A]

/-- A year of the later century, and a text whose second octet in UTF-8 is within a character. -/
theorem full_years_lastSecond :
    lastSecond.head? ≠ some plusSign ∧ StartsWithYear "20491231235959Z" ∧
      (utc lastSecond).fullYearText = .ok "20491231235959Z" ∧
      (¬∃ a b s year, [0x34, 0xE9] = a :: b :: s ∧ ShortYear a b year) ∧
      (utc [0x34, 0xE9]).fullYearText = .error (.malformed (.invalidUtcTime "4é")) := by
  have hplus : lastSecond.head? ≠ some plusSign := by decide
  have hlast : (utc lastSecond).fullYearText = .ok "20491231235959Z" := rfl
  have hcut : ¬∃ a b s year, [0x34, 0xE9] = a :: b :: s ∧ ShortYear a b year := by
    rintro ⟨a, b, s, year, hs, h⟩
    cases hs
    cases h with
    | digits _ hb => exact absurd hb.2 (by decide)
  obtain ⟨-, -, -, hyear, -⟩ := full_years lastSecond
  obtain ⟨-, -, hrefused, -⟩ := full_years [0x34, 0xE9]
  have htext : octetText [0x34, 0xE9] = "4é" := rfl
  exact ⟨hplus, (hyear hplus).2 _ hlast, hlast, hcut, htext ▸ hrefused hcut⟩

def signedTime : Octets :=
  [0x2B, 0x35, 0x30, 0x31, 0x30, 0x31, 0x30, 0x30, 0x30, 0x30, 0x30, 0x30, 0x5A]

/-- A sign is taken for a digit, and no year of four digits comes of it. -/
theorem fullYearText_signedTime :
    (¬∃ a b s, signedTime = a :: b :: s ∧ IsDigit a ∧ IsDigit b) ∧
      (utc signedTime).fullYearText = .ok "20+50101000000Z" ∧
      ¬StartsWithYear "20+50101000000Z" := by
  refine ⟨?_, rfl, ?_⟩
  · rintro ⟨a, b, s, hs, ha, -⟩
    cases hs
    exact absurd ha.1 (by decide)
  · rintro ⟨year, rest, htext, hlen, hdigits⟩
    obtain ⟨a, b, c, d, rfl⟩ := List.length_eq_four.1 hlen
    have hchars : ("20+50101000000Z" : String).toList =
        ['2', '0', '+', '5', '0', '1', '0', '1', '0', '0', '0', '0', '0', '0', 'Z'] := rfl
    cases hchars.symm.trans htext
    exact absurd (hdigits '+' (by simp)) (by decide)

end Certificate.Time

end Tlv
