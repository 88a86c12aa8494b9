import Mathlib.Data.List.Forall2
import Tlv.BitString

/-! # Unused bits

Only the last octet of a bit string holds unused bits. Clearing them gives an equal bit string, and
what a rule writes for a bit string is read back as that one or as its cleared form.
-/

namespace Tlv

namespace BitString

theorem beq_iff {a b : BitString} :
    a == b ↔ a.unused = b.unused ∧ a.cleared = b.cleared := by
  change a.beq b = true ↔ _
  rw [beq, Bool.and_eq_true, beq_iff_eq, beq_iff_eq]

theorem length_mapLast (f : UInt8 → UInt8) (s : Octets) : (mapLast f s).length = s.length := by
  rcases List.eq_nil_or_concat s with rfl | ⟨s, b, rfl⟩ <;> simp [mapLast]

theorem mapLast_mapLast (f g : UInt8 → UInt8) (s : Octets) :
    mapLast f (mapLast g s) = mapLast (f ∘ g) s := by
  rcases List.eq_nil_or_concat s with rfl | ⟨s, b, rfl⟩ <;> simp [mapLast]

theorem shiftRight_shiftLeft_le (m n : Nat) : m >>> n <<< n ≤ m := by
  rw [Nat.shiftRight_eq_div_pow, Nat.shiftLeft_eq]
  exact Nat.div_mul_le_self _ _

theorem toNat_clearLow (n : Nat) (b : UInt8) : (clearLow n b).toNat = b.toNat >>> n <<< n := by
  have hlt := Nat.lt_of_le_of_lt (shiftRight_shiftLeft_le b.toNat n) b.toNat_lt
  rw [clearLow, UInt8.toNat_ofNat', Nat.mod_eq_of_lt hlt]

theorem clearLow_le (n : Nat) (b : UInt8) : clearLow n b ≤ b := by
  rw [UInt8.le_iff_toNat_le, toNat_clearLow]
  exact shiftRight_shiftLeft_le _ _

theorem clearLow_clearLow (n : Nat) (b : UInt8) : clearLow n (clearLow n b) = clearLow n b := by
  rw [← UInt8.toNat_inj]
  simp only [toNat_clearLow, Nat.shiftLeft_shiftRight]

/-- The bit string with its unused bits cleared if the rule asks for it. -/
def under (rule : Rule) (b : BitString) : BitString :=
  if rule = .der then
    ⟨b.unused, b.cleared, b.unused_le, fun h => b.unused_of_nil <| by
      rwa [← List.length_eq_zero_iff, ← length_mapLast (clearLow b.unused),
        List.length_eq_zero_iff]⟩
  else b

variable {rule : Rule} {b : BitString}

@[simp] theorem unused_under : (b.under rule).unused = b.unused := by
  unfold under
  split <;> rfl

@[simp] theorem cleared_under : (b.under rule).cleared = b.cleared := by
  unfold under
  split
  · have hc : clearLow b.unused ∘ clearLow b.unused = clearLow b.unused := by
      ext a
      simp [clearLow_clearLow]
    change mapLast (clearLow b.unused) (mapLast (clearLow b.unused) b.data) = b.cleared
    rw [mapLast_mapLast, hc, cleared]
  · rfl

theorem under_beq : b.under rule == b := beq_iff.2 ⟨unused_under, cleared_under⟩

theorem contents_under : (b.under rule).contents = b.contentsUnder rule := by
  rw [contents, contentsUnder, unused_under, under]
  split <;> rfl

theorem ofContents_contents (h : rule = .der → b.cleared = b.data) :
    ofContents rule b.contents = .ok b := by
  have hu : (UInt8.ofNat b.unused).toNat = b.unused := by
    have := b.unused_le
    rw [UInt8.toNat_ofNat']
    omega
  rw [contents, ofContents]
  simp only [hu, dif_pos b.unused_le, dif_pos b.unused_of_nil]
  rw [if_neg]
  simpa using h

theorem ofContents_contentsUnder (rule : Rule) (b : BitString) :
    ofContents rule (b.contentsUnder rule) = .ok (b.under rule) := by
  rw [← contents_under]
  apply ofContents_contents
  intro h
  rw [cleared_under, under, if_pos h]

/-! ## Segments -/

theorem clearLow_zero (a : UInt8) : clearLow 0 a = a := by
  simp [clearLow]

theorem cleared_of_unused_eq_zero (h : b.unused = 0) : b.cleared = b.data := by
  rw [cleared, h]
  rcases List.eq_nil_or_concat b.data with h | ⟨s, a, h⟩ <;> simp [h, mapLast, clearLow_zero]

theorem cleared_append (a b : BitString) : (a.append b).cleared = a.data ++ b.cleared := by
  by_cases hb : b.data = []
  · have hu := b.unused_of_nil hb
    rw [cleared_of_unused_eq_zero hu, cleared_of_unused_eq_zero (b := a.append b) hu]
    rfl
  · obtain ⟨s, c, h⟩ := (List.eq_nil_or_concat b.data).resolve_left hb
    change mapLast (clearLow b.unused) (a.data ++ b.data) = a.data ++ b.cleared
    rw [cleared, h]
    simp [mapLast, ← List.append_assoc]

theorem append_beq {a a' b b' : BitString} (ha : a == a') (h0 : a'.unused = 0) (hb : b == b') :
    a.append b == a'.append b' := by
  obtain ⟨hau, hac⟩ := beq_iff.1 ha
  obtain ⟨hbu, hbc⟩ := beq_iff.1 hb
  refine beq_iff.2 ⟨hbu, ?_⟩
  rw [cleared_append, cleared_append, hbc, ← cleared_of_unused_eq_zero (hau.trans h0), hac,
    cleared_of_unused_eq_zero h0]

theorem exists_join {as bs : List BitString} {b : BitString}
    (hs : List.Forall₂ (fun a b => a == b) as (bs ++ [b])) (h0 : ∀ b ∈ bs, b.unused = 0) :
    ∃ a, join as = .ok a ∧ a == bs.foldr append b := by
  induction bs generalizing as with
  | nil =>
    cases hs with
    | @cons a _ _ _ ha hs =>
      cases hs
      exact ⟨a, rfl, ha⟩
  | cons c bs ih =>
    rw [List.forall_mem_cons] at h0
    cases hs with
    | @cons a _ as _ ha hs =>
      obtain ⟨d, hj, hd⟩ := ih hs h0.2
      refine ⟨a.append d, ?_, append_beq ha h0.1 hd⟩
      cases as with
      | nil => exact absurd hs.length_eq (by simp)
      | cons a' as =>
        rw [join, if_pos ((beq_iff.1 ha).1.trans h0.1), hj]
        rfl

end BitString

end Tlv
