import Mathlib.Data.List.GetD
import Tlv.Proofs.Segments

/-! # Bit strings as sequences of bits

Each sequence of bits is packed into octets in one way, with zeros for the unused bits. A bit string
equals what its bits are packed into, so equality and the DER contents depend on the bits alone,
and DER accepts the contents of packed sequences and nothing else.
-/

namespace Tlv

namespace BitString

variable {a b : BitString} {bs : List Bool} {s t : Octets}

/-! ## Bits of octets -/

theorem testBit_eq_false {i : Nat} (hi : 8 ≤ i) (a : UInt8) : a.toNat.testBit i = false :=
  Nat.testBit_lt_two_pow (Nat.lt_of_lt_of_le a.toNat_lt (Nat.pow_le_pow_right (by decide) hi))

theorem octetBits_injective : Function.Injective octetBits := by
  intro a b h
  rw [← UInt8.toNat_inj]
  apply Nat.eq_of_testBit_eq
  intro i
  rcases Nat.lt_or_ge i 8 with hi | hi
  · have hbit := congrArg (·[7 - i]?) h
    simpa [octetBits, show 7 - i < 8 by omega, show 7 - (7 - i) = i by omega] using hbit
  · rw [testBit_eq_false hi, testBit_eq_false hi]

theorem flatMap_octetBits_injective :
    Function.Injective fun s : Octets => s.flatMap octetBits := by
  intro s t h
  have hlen := congrArg List.length h
  simp only [length_flatMap_octetBits] at hlen
  induction s generalizing t with
  | nil => exact (List.eq_nil_of_length_eq_zero (by simpa using hlen.symm)).symm
  | cons a s ih =>
    cases t with
    | nil => simp at hlen
    | cons b t =>
      simp only [List.flatMap_cons] at h
      obtain ⟨hab, hst⟩ := List.append_inj h (by simp)
      rw [octetBits_injective hab, ih hst (by simp at hlen; omega)]

theorem octetBits_clearLow {n : Nat} (hn : n ≤ 8) (a : UInt8) :
    octetBits (clearLow n a) = (octetBits a).take (8 - n) ++ List.replicate n false := by
  apply List.ext_getElem
  · simp
    omega
  · intro i hi _
    rw [length_octetBits] at hi
    have hbit : (a.toNat >>> n <<< n).testBit (7 - i) =
        (decide (i < 8 - n) && a.toNat.testBit (7 - i)) := by
      rw [Nat.testBit_shiftLeft, Nat.testBit_shiftRight]
      by_cases h : n ≤ 7 - i
      · rw [Nat.add_sub_cancel' h, decide_eq_true h, decide_eq_true (by omega)]
      · rw [decide_eq_false h, decide_eq_false (by omega), Bool.false_and, Bool.false_and]
    rw [List.getElem_append]
    simp only [octetBits, List.getElem_map, List.getElem_range, toNat_clearLow, hbit,
      List.length_take, List.length_map, List.length_range, List.getElem_take,
      List.getElem_replicate]
    split <;> simp <;> omega

theorem mapLast_concat (f : UInt8 → UInt8) (s : Octets) (a : UInt8) :
    mapLast f (s ++ [a]) = s ++ [f a] := by
  simp [mapLast]

theorem flatMap_octetBits_cleared (b : BitString) :
    b.cleared.flatMap octetBits = b.bits ++ List.replicate b.unused false := by
  by_cases hnil : b.data = []
  · simp [cleared, bits, hnil, mapLast, b.unused_of_nil hnil]
  · obtain ⟨s, a, h⟩ := (List.eq_nil_or_concat b.data).resolve_left hnil
    have hle := b.unused_le
    have hlen : b.length = (s.flatMap octetBits).length + (8 - b.unused) := by
      rw [length, h, length_flatMap_octetBits, List.length_concat]
      omega
    rw [bits, hlen, cleared, h, List.concat_eq_append, mapLast_concat, List.flatMap_append,
      List.flatMap_append, List.flatMap_singleton, List.flatMap_singleton,
      List.take_length_add_append, octetBits_clearLow (by omega), List.append_assoc]

theorem unused_eq_of_length_eq (h : a.length = b.length) : a.unused = b.unused := by
  have ha := a.unused_le_length
  have hb := b.unused_le_length
  have := a.unused_le
  have := b.unused_le
  rw [length, length] at h
  omega

theorem beq_iff_bits_eq : a == b ↔ a.bits = b.bits := by
  rw [beq_iff]
  have hzeros (hunused : a.unused = b.unused) : a.cleared = b.cleared ↔ a.bits = b.bits := by
    rw [← flatMap_octetBits_injective.eq_iff]
    simp only [flatMap_octetBits_cleared, hunused, List.append_left_inj]
  constructor
  · rintro ⟨hunused, hcleared⟩
    exact (hzeros hunused).1 hcleared
  · intro h
    have hlen : a.length = b.length := by rw [← length_bits, h, length_bits]
    have hunused := unused_eq_of_length_eq hlen
    exact ⟨hunused, (hzeros hunused).2 h⟩

/-! ## Packed bits -/

/-- The octet of the first eight bits, the high one first, with zeros for bits that are missing. -/
def octetOfBits (bs : List Bool) : UInt8 :=
  UInt8.ofNat (Nat.ofBits fun i : Fin 8 => bs.getD (7 - i) false)

/-- The octets of the bits, eight in each. -/
def packed : List Bool → Octets
  | [] => []
  | b :: bs => octetOfBits (b :: bs) :: packed (bs.drop 7)
termination_by bs => bs.length
decreasing_by
  simp only [List.length_drop, List.length_cons]
  omega

/-- As few bits as fill up the last octet are unused. -/
def unusedFor (n : Nat) : Nat := (8 - n % 8) % 8

theorem octetBits_octetOfBits (bs : List Bool) :
    octetBits (octetOfBits bs) = bs.take 8 ++ List.replicate (8 - bs.length) false := by
  apply List.ext_getElem
  · simp
    omega
  · intro i hi _
    rw [length_octetBits] at hi
    have hbyte : (octetOfBits bs).toNat = Nat.ofBits fun i : Fin 8 => bs.getD (7 - i) false := by
      rw [octetOfBits, UInt8.toNat_ofNat', Nat.mod_eq_of_lt (Nat.ofBits_lt_two_pow _)]
    simp only [octetBits, List.getElem_map, List.getElem_range, hbyte]
    rw [Nat.testBit_ofBits_lt _ _ (by omega), List.getElem_append]
    simp only [show 7 - (7 - i) = i by omega, List.getElem_take, List.getElem_replicate]
    split <;> rename_i hlt <;> rw [List.length_take] at hlt
    · exact List.getD_eq_getElem _ _ (by omega)
    · exact List.getD_eq_default _ _ (by omega)

/-- The packed octets spell the bits, and zeros up to the next whole octet. -/
theorem flatMap_octetBits_packed (bs : List Bool) :
    (packed bs).flatMap octetBits = bs ++ List.replicate (unusedFor bs.length) false := by
  induction bs using packed.induct with
  | case1 => simp [packed, unusedFor]
  | case2 b bs ih =>
    rw [packed, List.flatMap_cons, ih, octetBits_octetOfBits, List.length_drop, List.length_cons]
    rcases Nat.lt_or_ge bs.length 7 with hlt | hge
    · have hunused : unusedFor (bs.length + 1) = 8 - (bs.length + 1) := by
        rw [unusedFor]
        omega
      have hrest : unusedFor (bs.length - 7) = 0 := by
        rw [unusedFor]
        omega
      rw [hunused, hrest, List.drop_eq_nil_of_le (by omega),
        List.take_of_length_le (by simp; omega)]
      simp
    · have hunused : unusedFor (bs.length - 7) = unusedFor (bs.length + 1) := by
        rw [unusedFor, unusedFor]
        omega
      rw [hunused, Nat.sub_eq_zero_of_le (by omega)]
      simp [← List.append_assoc]

def ofBits (bs : List Bool) : BitString where
  unused := unusedFor bs.length
  data := packed bs
  unused_le := by
    rw [unusedFor]
    omega
  unused_of_nil h := by
    have hbits := flatMap_octetBits_packed bs
    rw [h, List.flatMap_nil, eq_comm, List.append_eq_nil_iff] at hbits
    rw [hbits.1]
    rfl

@[simp] theorem bits_ofBits (bs : List Bool) : (ofBits bs).bits = bs := by
  have hbits := flatMap_octetBits_packed bs
  have hlen := congrArg List.length hbits
  rw [length_flatMap_octetBits, List.length_append, List.length_replicate] at hlen
  have : (ofBits bs).length = bs.length := by
    change (packed bs).length * 8 - unusedFor bs.length = bs.length
    omega
  rw [bits, this]
  change ((packed bs).flatMap octetBits).take bs.length = bs
  rw [hbits, List.take_left]

theorem cleared_ofBits (bs : List Bool) : (ofBits bs).cleared = (ofBits bs).data := by
  apply flatMap_octetBits_injective
  change (ofBits bs).cleared.flatMap octetBits = (packed bs).flatMap octetBits
  rw [flatMap_octetBits_cleared, bits_ofBits, flatMap_octetBits_packed]
  rfl

theorem ofBits_bits_beq (b : BitString) : ofBits b.bits == b :=
  beq_iff_bits_eq.2 (bits_ofBits b.bits)

/-! ## Contents -/

theorem contentsUnder_der (b : BitString) : b.contentsUnder .der = (ofBits b.bits).contents := by
  obtain ⟨hunused, hcleared⟩ := beq_iff.1 b.ofBits_bits_beq
  rw [contentsUnder, if_pos rfl, contents, hunused, ← hcleared, cleared_ofBits]

theorem contentsUnder_of_ne_der {rule : Rule} (h : rule ≠ .der) (b : BitString) :
    b.contentsUnder rule = b.contents := by
  rw [contentsUnder, if_neg h, contents]

theorem ofContents_ofBits (rule : Rule) (bs : List Bool) :
    ofContents rule (ofBits bs).contents = .ok (ofBits bs) :=
  ofContents_contents fun _ => cleared_ofBits bs

/-- DER accepts the contents of packed bits and nothing else. -/
theorem exists_ofContents_der_iff :
    (∃ b, ofContents .der s = .ok b) ↔ ∃ bs, s = (ofBits bs).contents := by
  constructor
  · rintro ⟨b, h⟩
    obtain ⟨rfl, hclear⟩ := contents_of_ofContents h
    refine ⟨b.bits, ?_⟩
    rw [← contentsUnder_der, contentsUnder, if_pos rfl, hclear rfl, contents]
  · rintro ⟨bs, rfl⟩
    exact ⟨ofBits bs, ofContents_ofBits .der bs⟩

end BitString

end Tlv
