import Tlv.Proofs.SelfDelimiting
import Tlv.Proofs.Subvalues

/-! # Progress through an input

Whatever is asked of an input, and whether it succeeds or not, the position moves forward only and
stays within the buffer. A value takes at least two octets, so no reader goes round more than half
as often as there are octets, and what is read is no larger than what was consumed.
-/

namespace Tlv

namespace Reader

variable {options : ReaderOptions} {s : Octets}

/-- The octets that a reading leaves, also when it fails. -/
def left {α : Type} {p : Octets → Prop} : Except Failure (α × { t : Octets // p t }) → Octets
  | .ok (_, t) => t
  | .error e => e.rest

theorem identifier_suffix {rule : Rule} {i : Identifier} {t : Octets}
    (h : Reads (Identifier.read rule s) i t) : t <:+ s := by
  obtain ⟨high, -, rfl⟩ := Identifier.exists_form_of_read h
  exact List.suffix_append _ _

theorem length_suffix {rule : Rule} {l : Length} {t : Octets}
    (h : Reads (Length.read rule s) l t) : t <:+ s := by
  cases l with
  | definite n =>
    obtain ⟨-, form, -, -, rfl⟩ := LengthForm.exists_form_of_read h
    exact List.suffix_append _ _
  | indefinite =>
    obtain ⟨-, rfl⟩ := LengthForm.indefinite_of_read h
    exact List.suffix_cons _ _

theorem left_header_suffix (options : ReaderOptions) (s : Octets) :
    left (header options s) <:+ s := by
  unfold header
  split
  · exact List.suffix_rfl
  rename_i i t ht hi
  have hs : t <:+ s := identifier_suffix ⟨ht, hi⟩
  split
  · exact hs
  · rename_i u hu hl
    exact (length_suffix ⟨hu, hl⟩).trans hs
  · rename_i n u hu hl
    have hs : u <:+ s := (length_suffix ⟨hu, hl⟩).trans hs
    split <;> exact hs

theorem left_valuesToEnd_suffix {one : (s : Octets) → Reading Value s}
    (h : ∀ s, left (one s) <:+ s) (s : Octets) : left (valuesToEnd one s) <:+ s := by
  fun_induction valuesToEnd one s with
  | case1 s => exact (List.suffix_cons _ s).trans (List.suffix_cons _ _)
  | case2 a b s _ e he => simpa [he, left] using h (a :: b :: s)
  | case3 a b s _ v t ht hv e he ih =>
    have hs : t <:+ a :: b :: s := by simpa [hv, left] using h (a :: b :: s)
    rw [he] at ih
    exact ih.trans hs
  | case4 a b s _ v t ht hv vs u hu hvs ih =>
    have hs : t <:+ a :: b :: s := by simpa [hv, left] using h (a :: b :: s)
    rw [hvs] at ih
    exact ih.trans hs
  | case5 s => exact List.suffix_rfl

section

variable {nested : Option (Octets → (s : Octets) → Reading Value s)}
  (hn : ∀ one, nested = some one → ∀ buffer s, left (one buffer s) <:+ s)

include hn

theorem left_contents_suffix (i : Identifier) (l : Length) (s : Octets) :
    left (contents options nested i l s) <:+ s := by
  unfold contents
  split
  · exact List.drop_suffix _ _
  · exact List.suffix_rfl
  · exact List.drop_suffix _ _
  · exact List.suffix_rfl
  · split <;> exact List.drop_suffix _ _
  · rename_i one _
    have hs := left_valuesToEnd_suffix (hn one rfl s) s
    split
    · exact List.suffix_rfl
    · rename_i he
      rwa [he] at hs

theorem left_unit_suffix (buffer s : Octets) : left (unit options nested buffer s) <:+ s := by
  have hh := left_header_suffix options s
  unfold unit
  split
  · rename_i he
    rwa [he] at hh
  rename_i i l t ht he
  rw [he] at hh
  split
  · exact hh
  have hc : left (contents options nested i l t) <:+ s :=
    (left_contents_suffix hn i l t).trans hh
  split
  · rename_i he
    rwa [he] at hc
  rename_i he
  rw [he] at hc
  split <;> exact hc

end

/-- Whether it succeeds or not, a reading leaves an end of its octets. -/
theorem left_value_suffix (d : Nat) (buffer s : Octets) :
    left (value options d buffer s) <:+ s := by
  induction d generalizing buffer s with
  | zero => exact left_unit_suffix (by rintro _ ⟨⟩) buffer s
  | succ d ih =>
    apply left_unit_suffix
    rintro _ ⟨⟩
    exact ih

theorem length_le_of_header {i : Identifier} {n : Nat} {t : Octets}
    (h : Reads (header options s) (i, .definite n) t) : n ≤ t.length := by
  obtain ⟨_, h⟩ := h
  unfold header at h
  split at h
  · cases h
  split at h
  · cases h
  · cases h
  split at h
  · cases h
  rename_i hcheck
  cases h
  exact (le_of_checkLength hcheck).2

end Reader

namespace Input

inductive Call where
  | header
  | value
  | all
  deriving DecidableEq, Repr

def perform (i : Input) : Call → Input
  | .header => i.nextHeader.2
  | .value => i.nextValue.2
  | .all => i.allValues.2

def performAll (i : Input) (calls : List Call) : Input := calls.foldl perform i

/-- Values that are read one after the other, up to some input. -/
inductive Run : Input → List Value → Input → Prop where
  | nil {i : Input} : Run i [] i
  | cons {i j k : Input} {v : Value} {vs : List Value} (hv : i.nextValue = (.ok v, j))
      (hvs : Run j vs k) : Run i (v :: vs) k

variable {i j k : Input} {v : Value} {vs : List Value} {e : Error}

theorem after_snd {α : Type} (r : Reading α i.rest) :
    (i.after r).2 = { i with rest := Reader.left r } := by
  rcases r with e | ⟨a, t⟩ <;> rfl

/-- The octets that a value is read from have room for all that is read. -/
theorem room_add_remaining_le (h : i.nextValue = (.ok v, j)) :
    Value.room v.subvalues + j.remaining ≤ i.remaining := by
  obtain ⟨t, rfl, hr⟩ := nextValue_eq_ok_iff.1 h
  obtain ⟨w, hw, htaken⟩ := Wire.reads_value_iff.1 hr
  have hroom := Value.room_le_of_denotes htaken.denotes
  simp only [remaining, hw, List.length_append]
  omega

theorem remaining_add_two_le (h : i.nextValue = (.ok v, j)) : j.remaining + 2 ≤ i.remaining := by
  have hroom := room_add_remaining_le h
  rw [Value.subvalues, Value.room_cons] at hroom
  omega

/-! ## Reading to the end is reading one value after the other -/

theorem allValues_of_rest_eq_nil (h : i.rest = []) : i.allValues = (.ok [], i) := by
  obtain ⟨options, buffer, rest⟩ := i
  obtain rfl : rest = [] := h
  simp [allValues, Reader.values]

theorem allValues_of_nextValue_error (hne : i.rest ≠ []) (h : i.nextValue = (.error e, j)) :
    i.allValues = (.error e, j) := by
  obtain ⟨options, buffer, rest⟩ := i
  obtain ⟨b, s, rfl⟩ := List.exists_cons_of_ne_nil hne
  simp only [nextValue, allValues, Reader.values] at h ⊢
  cases hr : Reader.value options options.depthLimit.toNat buffer (b :: s) with
  | error f =>
    rw [hr] at h
    cases h
    rfl
  | ok r =>
    rw [hr] at h
    cases h

theorem allValues_of_nextValue_ok (h : i.nextValue = (.ok v, j)) :
    i.allValues = (j.allValues.1.map (v :: ·), j.allValues.2) := by
  obtain ⟨t, rfl, ht, hr⟩ := nextValue_eq_ok_iff.1 h
  obtain ⟨options, buffer, rest⟩ := i
  cases rest with
  | nil => cases ht
  | cons b s =>
    simp only [allValues, Reader.values] at hr ⊢
    simp only [hr]
    cases Reader.values (Reader.value options options.depthLimit.toNat buffer) t <;> rfl

theorem exists_run_allValues (i : Input) :
    ∃ vs j, Run i vs j ∧ ((j.rest = [] ∧ i.allValues = (.ok vs, j)) ∨
      j.rest ≠ [] ∧ ∃ e k, j.nextValue = (.error e, k) ∧ i.allValues = (.error e, k)) := by
  by_cases hnil : i.rest = []
  · exact ⟨[], i, .nil, .inl ⟨hnil, allValues_of_rest_eq_nil hnil⟩⟩
  rcases hv : i.nextValue with ⟨e | v, j⟩
  · exact ⟨[], i, .nil, .inr ⟨hnil, e, j, hv, allValues_of_nextValue_error hnil hv⟩⟩
  · have hlt := remaining_add_two_le hv
    obtain ⟨vs, k, hrun, hend⟩ := exists_run_allValues j
    refine ⟨v :: vs, k, .cons hv hrun, ?_⟩
    rw [allValues_of_nextValue_ok hv]
    rcases hend with ⟨hk, hall⟩ | ⟨hk, e, l, hnext, hall⟩
    · rw [hall]
      exact .inl ⟨hk, rfl⟩
    · rw [hall]
      exact .inr ⟨hk, e, l, hnext, rfl⟩
termination_by i.remaining
decreasing_by omega

theorem Run.room_add_remaining_le (h : Run i vs j) :
    Value.room (vs.flatMap Value.subvalues) + j.remaining ≤ i.remaining := by
  induction h with
  | nil => simp
  | cons hv _ ih =>
    have hroom := Input.room_add_remaining_le hv
    rw [List.flatMap_cons, Value.room_append]
    omega

theorem Run.length_add_remaining_le (h : Run i vs j) :
    2 * vs.length + j.remaining ≤ i.remaining := by
  induction h with
  | nil => simp
  | cons hv _ ih =>
    have hle := remaining_add_two_le hv
    rw [List.length_cons]
    omega

/-! ## The position -/

/-- The second input stands where the first does, or further on. -/
structure Reaches (i j : Input) : Prop where
  options_eq : j.options = i.options
  buffer_eq : j.buffer = i.buffer
  suffix : j.rest <:+ i.rest

theorem Reaches.refl (i : Input) : i.Reaches i := ⟨rfl, rfl, List.suffix_rfl⟩

theorem Reaches.trans (h : i.Reaches j) (h' : j.Reaches k) : i.Reaches k where
  options_eq := h'.options_eq.trans h.options_eq
  buffer_eq := h'.buffer_eq.trans h.buffer_eq
  suffix := h'.suffix.trans h.suffix

theorem reaches_after {α : Type} {r : Reading α i.rest} (h : Reader.left r <:+ i.rest) :
    i.Reaches (i.after r).2 := by
  rw [after_snd]
  exact ⟨rfl, rfl, h⟩

theorem reaches_of_nextHeader {r : Result (Identifier × Length)} (h : i.nextHeader = (r, j)) :
    i.Reaches j := by
  obtain rfl : i.nextHeader.2 = j := congrArg Prod.snd h
  exact reaches_after (Reader.left_header_suffix _ _)

theorem reaches_of_nextValue {r : Result Value} (h : i.nextValue = (r, j)) : i.Reaches j := by
  obtain rfl : i.nextValue.2 = j := congrArg Prod.snd h
  exact reaches_after (Reader.left_value_suffix _ _ _)

theorem Run.reaches (h : Run i vs j) : i.Reaches j := by
  induction h with
  | nil => exact .refl _
  | cons hv _ ih => exact (reaches_of_nextValue hv).trans ih

theorem reaches_allValues (i : Input) : i.Reaches i.allValues.2 := by
  obtain ⟨vs, j, hrun, ⟨-, hall⟩ | ⟨-, e, k, hnext, hall⟩⟩ := i.exists_run_allValues
  · rw [hall]
    exact hrun.reaches
  · rw [hall]
    exact hrun.reaches.trans (reaches_of_nextValue hnext)

/-- No call moves backward, nor behind the end. -/
theorem reaches_perform (i : Input) (call : Call) : i.Reaches (i.perform call) := by
  cases call with
  | header => exact reaches_of_nextHeader rfl
  | value => exact reaches_of_nextValue rfl
  | all => exact i.reaches_allValues

theorem reaches_performAll (i : Input) (calls : List Call) : i.Reaches (i.performAll calls) := by
  induction calls generalizing i with
  | nil => exact .refl i
  | cons call calls ih => exact (i.reaches_perform call).trans (ih _)

variable {options : ReaderOptions} {s : Octets}

theorem position_add_remaining (h : (ofOctets options s).Reaches i) :
    i.position + i.remaining = s.length := by
  have hle : i.rest.length ≤ s.length := h.suffix.length_le
  rw [position, remaining, show i.buffer = s from h.buffer_eq]
  omega

theorem rest_eq_drop (h : (ofOctets options s).Reaches i) : i.rest = s.drop i.position := by
  rw [position, show i.buffer = s from h.buffer_eq]
  exact List.suffix_iff_eq_drop.1 h.suffix

theorem position_le_of_reaches (h : (ofOctets options s).Reaches i) (hj : i.Reaches j) :
    i.position ≤ j.position := by
  have hi := position_add_remaining h
  have hj' := position_add_remaining (h.trans hj)
  have hle : j.remaining ≤ i.remaining := hj.suffix.length_le
  omega

theorem length_le_of_nextHeader {identifier : Identifier} {n : Nat}
    (h : i.nextHeader = (.ok (identifier, .definite n), j)) : n ≤ j.remaining := by
  obtain ⟨t, rfl, hr⟩ := after_eq_ok_iff.1 h
  exact Reader.length_le_of_header hr

/-- After any calls, failed ones included, the input stands at a position in its buffer, and the
next call leaves it there or further on. Contents whose length is declared are at hand, a value
takes two octets or more, and it has no more than half as many values in it, with room for all
contents octets that they keep. Reading to the end is reading values, no more than half as many as
there are octets, until the octets are used up or the next value cannot be read. -/
theorem progress {calls : List Call} (h : (ofOctets options s).performAll calls = i) :
    i.options = options ∧ i.buffer = s ∧ i.position ≤ s.length ∧ i.rest = s.drop i.position ∧
      (∀ call, i.position ≤ (i.perform call).position ∧ (i.perform call).position ≤ s.length) ∧
      (∀ identifier n j, i.nextHeader = (.ok (identifier, .definite n), j) →
        j.position + n ≤ s.length) ∧
      (∀ v j, i.nextValue = (.ok v, j) → i.position + 2 ≤ j.position ∧
        2 * v.subvalues.length + (v.subvalues.map Value.stored).sum ≤ j.position - i.position) ∧
      ∃ vs j, Run i vs j ∧ 2 * vs.length ≤ j.position - i.position ∧
        Value.room (vs.flatMap Value.subvalues) ≤ j.position - i.position ∧
        ((j.position = s.length ∧ i.allValues = (.ok vs, j)) ∨
          ∃ e k, j.nextValue = (.error e, k) ∧ i.allValues = (.error e, k)) := by
  have hi : (ofOctets options s).Reaches i := h ▸ reaches_performAll _ calls
  have hpos := position_add_remaining hi
  refine ⟨hi.options_eq, hi.buffer_eq, by omega, rest_eq_drop hi, ?_, ?_, ?_, ?_⟩
  · intro call
    have hc := i.reaches_perform call
    have hpos' := position_add_remaining (hi.trans hc)
    exact ⟨position_le_of_reaches hi hc, by omega⟩
  · intro identifier n j hj
    have hn := length_le_of_nextHeader hj
    have hpos' := position_add_remaining (hi.trans (reaches_of_nextHeader hj))
    omega
  · intro v j hj
    have hpos' := position_add_remaining (hi.trans (reaches_of_nextValue hj))
    have htwo := remaining_add_two_le hj
    have hroom := room_add_remaining_le hj
    rw [Value.room] at hroom
    omega
  · obtain ⟨vs, j, hrun, hend⟩ := i.exists_run_allValues
    have hpos' := position_add_remaining (hi.trans hrun.reaches)
    have hlen := hrun.length_add_remaining_le
    have hroom := hrun.room_add_remaining_le
    refine ⟨vs, j, hrun, by omega, by omega, ?_⟩
    rcases hend with ⟨hnil, hall⟩ | ⟨-, hfail⟩
    · have hzero : j.remaining = 0 := List.length_eq_zero_iff.2 hnil
      exact .inl ⟨by omega, hall⟩
    · exact .inr hfail

/-- A stray marker, a string in segments, and a unit that is cut off. -/
def brokenOctets : Octets := [0, 0, 0x24, 0x80, 0x04, 1, 7, 0x04, 1, 8, 0, 0, 0x30, 2, 0x05]

theorem progress_brokenOctets :
    ∃ i j, (ofOctets {} brokenOctets).performAll [.value] = i ∧
      i.nextValue = (.ok (.octetString [7, 8]), j) ∧ i.position + 2 ≤ j.position ∧
      2 * 1 + 2 ≤ j.position - i.position ∧ i.position ≤ (i.perform .all).position ∧
      (i.perform .all).position ≤ 15 := by
  have h : (ofOctets {} brokenOctets).performAll [.value] =
      ⟨{}, brokenOctets, brokenOctets.drop 2⟩ := by cbv
  have hv : (⟨{}, brokenOctets, brokenOctets.drop 2⟩ : Input).nextValue =
      (.ok (.octetString [7, 8]), ⟨{}, brokenOctets, brokenOctets.drop 12⟩) := by cbv
  obtain ⟨-, -, -, -, hstep, -, hvalue, -⟩ := progress h
  obtain ⟨htwo, hroom⟩ := hvalue _ _ hv
  exact ⟨_, _, h, hv, htwo, hroom, hstep .all⟩

end Input

end Tlv
