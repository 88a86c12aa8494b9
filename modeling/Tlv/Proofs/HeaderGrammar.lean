import Tlv.Proofs.Header

/-! # The grammar of headers

Identifier and length octets are read only if they are spelled in a form that the rule admits.
With the readings of all such forms this says exactly which headers a rule takes, and under DER
there is one for each tag and length.
-/

namespace Tlv

namespace Base128

theorem continues_iff {b : UInt8} : continues b = true ↔ 128 ≤ b.toNat := by
  simp [continues, UInt8.le_iff_toNat_le]

theorem continued_group {n : Nat} {b : UInt8} (hb : continues b = true)
    (hpos : 0 < n * 128 + bits b) : continued (n * 128 + bits b) = continued n ++ [b] := by
  have hle := continues_iff.1 hb
  have hlt := b.toNat_lt
  have hdiv : (n * 128 + bits b) / 128 = n := by
    rw [bits]
    omega
  have hmod : (n * 128 + bits b) % 128 + 128 = b.toNat := by
    rw [bits]
    omega
  rw [continued_of_pos hpos, hdiv, hmod, UInt8.ofNat_toNat]

theorem pos_of_ne_empty {n : Nat} {b : UInt8} (hb : continues b = true)
    (h : n = 0 → b ≠ 0x80) : 0 < n * 128 + bits b := by
  by_contra hz
  have hle := continues_iff.1 hb
  have hlt := b.toNat_lt
  have hbits : b.toNat % 128 = 0 := by
    rw [bits] at hz
    omega
  apply h (by omega)
  rw [← UInt8.toNat_inj]
  simp
  omega

theorem octets_group {n : Nat} {b : UInt8} (hb : continues b = false) :
    octets (n * 128 + bits b) = continued n ++ [b] := by
  have hlt : b.toNat < 128 := by
    by_contra hge
    rw [continues_iff.2 (Nat.not_lt.1 hge)] at hb
    cases hb
  have hdiv : (n * 128 + bits b) / 128 = n := by
    rw [bits]
    omega
  have hmod : (n * 128 + bits b) % 128 = b.toNat := by
    rw [bits]
    omega
  rw [octets, hdiv, hmod, UInt8.ofNat_toNat]

end Base128

namespace Identifier

variable {rule : Rule} {i : Identifier} {acc n : Nat} {s t : Octets}

/-- The groups that are read complete the number, unless an empty group leads. -/
theorem exists_groups_of_readNumber (h0 : acc = 0 → s.head? ≠ some 0x80)
    (h : Reads (readNumber acc s) n t) :
    n < UInt32.size ∧ ∃ g, s = g ++ t ∧ Base128.continued acc ++ g = Base128.octets n := by
  induction s generalizing acc with
  | nil =>
    obtain ⟨_, h⟩ := h
    cases h
  | cons b s ih =>
    obtain ⟨_, h⟩ := h
    have hbits : Base128.bits b < 128 := Nat.mod_lt _ (by decide)
    rw [readNumber] at h
    split at h
    case isFalse => cases h
    case isTrue hacc =>
      rw [UInt32.size] at hacc ⊢
      dsimp only at h
      split at h
      case isTrue hb =>
        split at h
        · cases h
        rename_i m u hu hm
        cases h
        have hpos : 0 < acc * 128 + Base128.bits b :=
          Base128.pos_of_ne_empty hb fun hz hb => h0 hz (by rw [hb]; rfl)
        obtain ⟨hn, g, rfl, hg⟩ := ih (fun hz => absurd hz (by omega)) ⟨hu, hm⟩
        refine ⟨hn, b :: g, rfl, ?_⟩
        rw [← hg, Base128.continued_group hb hpos, List.append_assoc, List.singleton_append]
      case isFalse hb =>
        cases h
        refine ⟨by omega, [b], rfl, ?_⟩
        rw [Base128.octets_group (by simpa using hb)]

theorem toNat_bits_ofIdentifier (b : UInt8) :
    (TagClass.ofIdentifier b).bits.toNat = b.toNat / 64 * 64 := by
  have hlt := b.toNat_lt
  simp only [TagClass.ofIdentifier, UInt8.lt_iff_toNat_lt]
  split <;> rename_i h₁
  · simp [TagClass.bits] at *
    omega
  split <;> rename_i h₂
  · simp [TagClass.bits] at *
    omega
  split <;> rename_i h₃ <;> simp [TagClass.bits] at * <;> omega

theorem firstOctet_eq (b : UInt8) (number : UInt32) :
    firstOctet ⟨⟨TagClass.ofIdentifier b, number⟩, b.toNat / 32 % 2 == 1⟩ (b.toNat % 32) = b := by
  rw [← UInt8.toNat_inj, toNat_firstOctet (Nat.mod_lt _ (by decide))]
  simp only [toNat_bits_ofIdentifier, beq_iff_eq]
  split <;> omega

theorem exists_form_of_read (h : Reads (read rule s) i t) :
    ∃ high, (high = true → i.tag.number < 31 → rule.minimalForms = false) ∧
      s = (if high then i.highOctets else i.octets) ++ t := by
  obtain ⟨_, h⟩ := h
  cases s with
  | nil => cases h
  | cons b s =>
    rw [read] at h
    split at h
    case isTrue hlow =>
      cases h
      have hn : (UInt32.ofNat (b.toNat % 32)).toNat = b.toNat % 32 := by
        rw [UInt32.toNat_ofNat', Nat.mod_eq_of_lt]
        omega
      have hlt : UInt32.ofNat (b.toNat % 32) < 31 := by
        rw [UInt32.lt_iff_toNat_lt, hn]
        exact hlow
      refine ⟨false, by simp, ?_⟩
      rw [if_neg (by simp), octets, if_pos hlt, hn, firstOctet_eq]
      rfl
    case isFalse hlow =>
      split at h
      · cases h
      rename_i tag u hu htag
      cases h
      rw [readHighForm] at htag
      split at htag
      · cases htag
      rename_i hhead
      split at htag
      · cases htag
      rename_i n r hread
      split at htag
      · cases htag
      rename_i hmin
      cases htag
      obtain ⟨hn, g, rfl, hg⟩ := exists_groups_of_readNumber (fun _ => hhead) ⟨_, hread⟩
      have hnum : (UInt32.ofNat n).toNat = n := by
        rw [UInt32.toNat_ofNat', Nat.mod_eq_of_lt hn]
      have h31 : b.toNat % 32 = 31 := by omega
      refine ⟨true, ?_, ?_⟩
      · intro _ hlt
        rw [UInt32.lt_iff_toNat_lt, hnum] at hlt
        have hlt : n < 31 := hlt
        simpa [hlt] using hmin
      · rw [if_pos rfl, highOctets, hnum, ← hg, ← h31, firstOctet_eq, Base128.continued_zero]
        rfl

end Identifier

namespace LengthForm

variable {rule : Rule} {form : LengthForm} {n : Nat} {digits s t : Octets}

theorem admits_long_of_ofDigits (h1 : 1 ≤ digits.length) (h126 : digits.length ≤ 126)
    (h : Length.ofDigits rule digits = .ok n) :
    n < UInt64.size ∧ (long digits.length).Admits rule n ∧
      digits = BigEndian.fixed digits.length n := by
  rw [Length.ofDigits] at h
  split at h
  · cases h
  rename_i hsig
  split at h
  · cases h
  rename_i hmin
  cases h
  have hlt := BigEndian.value_lt digits
  refine ⟨?_, ⟨h1, h126, hlt, ?_⟩, ?_⟩
  · exact BigEndian.value_lt_of_length_significant_le (Nat.not_lt.1 hsig)
  · intro hr
    simp only [hr, Bool.true_and, Bool.or_eq_true, beq_iff_eq, decide_eq_true_eq, not_or] at hmin
    refine ⟨Nat.not_lt.1 hmin.2, ?_⟩
    cases digits with
    | nil => cases h1
    | cons b s =>
      have hb : 1 ≤ b.toNat := by
        by_contra hb
        have hz : b = 0 := UInt8.toNat_inj.1 (Nat.lt_one_iff.1 (Nat.not_le.1 hb))
        exact hmin.1 (by rw [hz]; rfl)
      have hle : 1 * 256 ^ s.length ≤ b.toNat * 256 ^ s.length := Nat.mul_le_mul_right _ hb
      rw [BigEndian.value_cons, List.length_cons, Nat.add_sub_cancel]
      omega
  · apply BigEndian.eq_of_value_eq
    · rw [BigEndian.length_fixed]
    · rw [BigEndian.value_fixed, Nat.mod_eq_of_lt hlt]

theorem exists_form_of_read (h : Reads (Length.read rule s) (.definite n) t) :
    n < UInt64.size ∧ ∃ form, form ≠ indefinite ∧ form.Admits rule n ∧ s = form.octets n ++ t := by
  obtain ⟨_, h⟩ := h
  cases s with
  | nil => cases h
  | cons b s =>
    rw [Length.read] at h
    split at h
    case isTrue hb =>
      cases h
      rw [UInt8.lt_iff_toNat_lt] at hb
      exact ⟨Nat.lt_trans hb (by decide), short, by simp, hb, by simp [octets]⟩
    split at h
    · split at h <;> cases h
    split at h
    · cases h
    rename_i hlow hind hres
    generalize hcount : b.toNat - 128 = k at h
    dsimp only at h
    have hb : 1 ≤ k ∧ k ≤ 126 ∧ 128 + k = b.toNat := by
      rw [UInt8.lt_iff_toNat_lt] at hlow
      rw [Length.indefiniteOctet, ← UInt8.toNat_inj] at hind
      rw [← UInt8.toNat_inj] at hres
      have hlt := b.toNat_lt
      simp at hlow hind hres
      omega
    split at h
    case isFalse => cases h
    case isTrue hlen =>
      split at h
      · cases h
      rename_i m hm
      cases h
      have hk : (s.take k).length = k := by
        rw [List.length_take, Nat.min_eq_left (Octets.hasAtLeast_iff.1 hlen)]
      obtain ⟨hsize, hadm, hdig⟩ := admits_long_of_ofDigits (by omega) (by omega) hm
      rw [hk] at hadm hdig
      refine ⟨hsize, long k, by simp, hadm, ?_⟩
      rw [octets, hb.2.2, UInt8.ofNat_toNat, List.cons_append, ← hdig, List.take_append_drop]

theorem indefinite_of_read (h : Reads (Length.read rule s) .indefinite t) :
    rule.indefiniteLengths = true ∧ s = Length.indefiniteOctet :: t := by
  obtain ⟨_, h⟩ := h
  cases s with
  | nil => cases h
  | cons b s =>
    rw [Length.read] at h
    split at h
    · cases h
    split at h
    case isTrue hb =>
      split at h
      case isTrue hr =>
        cases h
        exact ⟨hr, by rw [hb]⟩
      case isFalse => cases h
    split at h
    · cases h
    dsimp only at h
    split at h
    case isFalse => cases h
    case isTrue => split at h <;> cases h

/-- DER leaves no choice between forms. -/
theorem octets_of_admits_der (h : form.Admits .der n) : form.octets n = Length.octets n := by
  cases form with
  | short => exact (if_pos h).symm
  | long k =>
    obtain ⟨hk, -, hlt, hmin⟩ := h
    obtain ⟨h128, hlo⟩ := hmin rfl
    have hlen : (BigEndian.octets n).length = k := by
      apply Nat.le_antisymm (BigEndian.length_octets_le hlt)
      have hn := BigEndian.value_lt (BigEndian.octets n)
      rw [BigEndian.value_octets] at hn
      have := (Nat.pow_lt_pow_iff_right (by decide)).1 (Nat.lt_of_le_of_lt hlo hn)
      omega
    rw [octets, Length.octets, if_neg (Nat.not_lt.2 h128), hlen, ← hlen,
      BigEndian.fixed_length_octets]
  | indefinite => cases h

end LengthForm

namespace Header

theorem length_ne_of_admits_der {h : Header} {n : Nat} (ha : h.Admits .der n) :
    h.length ≠ .indefinite := by
  intro he
  have hl := ha.2.2
  rw [he] at hl
  cases hl

theorem frame_of_admits_der {h : Header} {s : Octets} (ha : h.Admits .der s.length)
    (constructed : Bool) :
    h.frame constructed s = Encoding.frame ⟨h.tag, constructed⟩ false s := by
  have hi : h.identifierOctets constructed = Identifier.octets ⟨h.tag, constructed⟩ := by
    rw [identifierOctets]
    split
    case isTrue hh =>
      exact (Identifier.octets_eq_highOctets fun hlt => absurd (ha.2.1 hh hlt) (by decide)).symm
    case isFalse => rfl
  rw [frame, Encoding.frame, hi, if_neg (length_ne_of_admits_der ha),
    LengthForm.octets_of_admits_der ha.2.2]
  rfl

end Header

end Tlv
