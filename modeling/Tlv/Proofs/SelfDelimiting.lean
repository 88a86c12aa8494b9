import Tlv.Input
import Tlv.Proofs.Acceptance

/-! # Where a unit ends

A unit tells where it ends, also where its length is left open. So what stands behind it has no
part in how it is read, and of all octets that begin alike, only one list is a unit by itself.
-/

namespace Tlv

variable {options : ReaderOptions} {p q s t u : Octets} {v : Value}

namespace Reader

variable {d : Nat} {buffer buffer' : Octets}

theorem exists_append_of_reads (h : Reads (value options d buffer s) v t) : ∃ p, s = p ++ t := by
  obtain ⟨w, hw, -⟩ := Wire.reads_value_iff.1 h
  exact ⟨w.octets, hw⟩

/-- The octets behind a value can be exchanged for others. -/
theorem reads_append (h : Reads (value options d buffer (p ++ s)) v s) (t : Octets) :
    Reads (value options d buffer' (p ++ t)) v t := by
  obtain ⟨w, hw, htaken⟩ := Wire.reads_value_iff.1 h
  obtain rfl : p = w.octets := List.append_cancel_right hw
  exact Wire.reads_value_iff.2 ⟨w, rfl, htaken⟩

end Reader

namespace Input

variable {i j : Input}

theorem after_eq_ok_iff {α : Type} {r : Reading α i.rest} {a : α} :
    i.after r = (.ok a, j) ↔ ∃ t, j = { i with rest := t } ∧ Reads r a t := by
  rcases r with e | ⟨b, t, ht⟩
  · simp [after, Reads]
  · constructor
    · intro h
      cases h
      exact ⟨t, rfl, ht, rfl⟩
    · rintro ⟨_, rfl, _, hr⟩
      cases hr
      rfl

theorem nextValue_eq_ok_iff :
    i.nextValue = (.ok v, j) ↔ ∃ t, j = { i with rest := t } ∧
      Reads (Reader.value i.options i.options.depthLimit.toNat i.buffer i.rest) v t :=
  after_eq_ok_iff

theorem nextValue_ofOctets_iff :
    (∃ i, (ofOctets options (p ++ s)).nextValue = (.ok v, i) ∧ i.position = p.length) ↔
      Reads (Reader.value options options.depthLimit.toNat (p ++ s) (p ++ s)) v s := by
  constructor
  · rintro ⟨_, hi, hpos⟩
    obtain ⟨t, rfl, hr⟩ := nextValue_eq_ok_iff.1 hi
    obtain ⟨r, hp⟩ := Reader.exists_append_of_reads hr
    have hlen := congrArg List.length hp
    simp only [position, ofOctets, List.length_append] at hp hpos hlen
    obtain ⟨-, rfl⟩ := List.append_inj hp (by omega)
    exact hr
  · intro hr
    exact ⟨_, nextValue_eq_ok_iff.2 ⟨s, rfl, hr⟩, by simp [position, ofOctets]⟩

end Input

namespace Value

theorem ofOctets_eq_ok_iff_reads :
    ofOctets options p = .ok v ↔
      Reads (Reader.value options options.depthLimit.toNat p p) v [] := by
  rw [ofOctets_eq_ok_iff, Wire.reads_value_iff]
  simp only [List.append_nil, eq_comm (a := p)]

theorem ofOctets_append_of_ne_nil (h : ofOctets options p = .ok v) (hs : s ≠ []) :
    ofOctets options (p ++ s) = .error (.malformed (.trailingOctets s.length)) := by
  rw [ofOctets_eq_ok_iff_reads, ← List.append_nil p] at h
  obtain ⟨_, hr⟩ : Reads (Reader.value options options.depthLimit.toNat (p ++ s) (p ++ s)) v s :=
    Reader.reads_append h s
  rw [ofOctets, hr]
  exact if_neg hs

theorem exists_error_of_proper_prefix (h : ofOctets options p = .ok v) (hq : q <+: p)
    (hne : q ≠ p) : ∃ e, ofOctets options q = .error e := by
  obtain ⟨s, rfl⟩ := hq
  cases hr : ofOctets options q with
  | error e => exact ⟨e, rfl⟩
  | ok w =>
    have hs : s ≠ [] := by
      rintro rfl
      exact hne (List.append_nil q).symm
    rw [ofOctets_append_of_ne_nil hr hs] at h
    cases h

/-- What is read from the front of an input, and how far, does not depend on what follows. So of
octets that are a value no proper beginning is one, nor are they the beginning of another. -/
theorem self_delimiting (options : ReaderOptions) :
    (∀ (p s t : Octets) (v : Value),
      (∃ i, (Input.ofOctets options (p ++ s)).nextValue = (.ok v, i) ∧ i.position = p.length) →
        ∃ i, (Input.ofOctets options (p ++ t)).nextValue = (.ok v, i) ∧ i.position = p.length) ∧
    ∀ (p : Octets) (v : Value), ofOctets options p = .ok v →
      (∀ q, q <+: p → q ≠ p → ∃ e, ofOctets options q = .error e) ∧
      ∀ s, s ≠ [] → ∃ e, ofOctets options (p ++ s) = .error e := by
  constructor
  · intro p s t v h
    rw [Input.nextValue_ofOctets_iff] at h ⊢
    exact Reader.reads_append h t
  · intro p v h
    constructor
    · intro q hq hne
      exact exists_error_of_proper_prefix h hq hne
    · intro s hs
      exact ⟨_, ofOctets_append_of_ne_nil h hs⟩

/-- Open contents inside closed ones inside open ones, with an OCTET STRING that looks like their
end. -/
def nestedOctets : Octets :=
  [0x30, 0x80, 0x31, 9, 0xA1, 0x80, 0x02, 1, 5, 0, 0, 0x05, 0, 0x04, 2, 0, 0, 0, 0]

def nestedValue : Value :=
  .sequence [.set [.tagged (.raw (.context 1) .ber (.constructed [.integer (.ofInt 5)])), .null],
    .octetString [0, 0]]

theorem self_delimiting_nestedOctets :
    (∃ i, (Input.ofOctets {} (nestedOctets ++ [0, 0, 0x30])).nextValue = (.ok nestedValue, i) ∧
      i.position = 19) ∧
    (∃ e, ofOctets {} (nestedOctets.take 17) = .error e) ∧
    ∃ e, ofOctets {} (nestedOctets ++ [0, 0]) = .error e := by
  have h : ofOctets {} nestedOctets = .ok nestedValue := by cbv
  obtain ⟨hnext, hends⟩ := self_delimiting {}
  obtain ⟨hshort, hlong⟩ := hends nestedOctets nestedValue h
  refine ⟨hnext nestedOctets [] _ nestedValue ?_, hshort _ (List.take_prefix 17 _) ?_, hlong _ ?_⟩
  · rw [Input.nextValue_ofOctets_iff, List.append_nil]
    exact ofOctets_eq_ok_iff_reads.1 h
  · decide
  · decide

end Value

end Tlv
