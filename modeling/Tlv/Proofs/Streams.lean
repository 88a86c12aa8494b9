import Mathlib.Data.List.DropRight
import Tlv.Output
import Tlv.Proofs.Canonical
import Tlv.Proofs.Progress
import Tlv.Proofs.Width

/-! # Streams of values

An output holds the encodings that were appended since it was last cleared, one after the other.
Units tell where they end, so an input over these octets gives the values back, and after each of
them it stands where the widths say that the next one begins.
-/

namespace Tlv

namespace Output

inductive Step where
  | value (v : Value)
  | encoding (e : Encoding)
  | clear

namespace Step

def isClear : Step → Bool
  | clear => true
  | _ => false

def encoding? (rule : Rule) : Step → Option Encoding
  | value v => some (v.encoding rule)
  | encoding e => some e
  | clear => none

end Step

def perform (o : Output) : Step → Output
  | .value v => o.appendValue v
  | .encoding e => o.append e
  | .clear => o.clear

def performAll (o : Output) (steps : List Step) : Output := steps.foldl perform o

/-- The encodings that are appended after the last step that clears. -/
def appended (rule : Rule) (steps : List Step) : List Encoding :=
  (steps.rtakeWhile fun step => !step.isClear).filterMap (Step.encoding? rule)

variable {rule : Rule} {steps : List Step}

theorem appended_concat (rule : Rule) (steps : List Step) (step : Step) :
    appended rule (steps ++ [step]) =
      match step.encoding? rule with
      | some e => appended rule steps ++ [e]
      | none => [] := by
  cases step <;> simp [appended, Step.isClear, Step.encoding?]

/-- An output never holds more or less than what was appended since it was cleared. -/
theorem performAll_eq (rule : Rule) (steps : List Step) :
    performAll { rule } steps = ⟨rule, (appended rule steps).flatMap Encoding.octets⟩ := by
  induction steps using List.reverseRecOn with
  | nil => rfl
  | append_singleton steps step ih =>
    have hstep : performAll { rule } (steps ++ [step]) = (performAll { rule } steps).perform step :=
      List.foldl_concat _ _ _ _
    rw [hstep, ih, appended_concat]
    cases step <;>
      simp [perform, appendValue, append, clear, Step.encoding?, List.flatMap_append]

theorem appended_map_value (rule : Rule) (vs : List Value) :
    appended rule (vs.map .value) = vs.map (Value.encoding rule) := by
  have hall : (vs.map Step.value).rtakeWhile (fun step => !step.isClear) = vs.map .value := by
    simp [List.rtakeWhile_eq_self_iff, Step.isClear]
  rw [appended, hall, List.filterMap_map, ← List.filterMap_eq_map]
  rfl

theorem octets_performAll_value (rule : Rule) (vs : List Value) :
    (performAll { rule } (vs.map .value)).octets = vs.flatMap (Value.octets rule) := by
  rw [performAll_eq, appended_map_value, List.flatMap_map]
  rfl

end Output

theorem Value.taken_wire {options : ReaderOptions} {v : Value} (hv : v.Valid)
    (hw : (v.wire options.rule).Within options) :
    (v.wire options.rule).Taken options options.depthLimit.toNat (v.reread options.rule) where
  admitted := admitted_wire hv hw
  depth_le := hw.1
  longest_le := hw.2
  denotes := denotes_of_holds hv (holds_held v hv)

theorem Value.length_flatMap_octets (rule : Rule) (vs : List Value) :
    (vs.flatMap (octets rule)).length = (vs.map (width rule)).sum := by
  simp [List.length_flatMap, length_octets]

namespace Input

variable {i j : Input} {v : Value} {vs : List Value} {t : Octets}

theorem nextValue_of_rest_eq (hv : v.Valid) (hw : (v.wire i.options.rule).Within i.options)
    (h : i.rest = v.octets i.options.rule ++ t) :
    i.nextValue = (.ok (v.reread i.options.rule), { i with rest := t }) := by
  rw [← Value.octets_wire] at h
  exact nextValue_eq_ok_iff.2 ⟨t, rfl, Wire.reads_value_iff.2 ⟨_, h, Value.taken_wire hv hw⟩⟩

theorem run_of_rest_eq (hv : ∀ v ∈ vs, v.Valid ∧ (v.wire i.options.rule).Within i.options)
    (h : i.rest = vs.flatMap (Value.octets i.options.rule) ++ t) :
    Run i (vs.map (Value.reread i.options.rule)) { i with rest := t } := by
  induction vs generalizing i with
  | nil =>
    obtain ⟨options, buffer, rest⟩ := i
    obtain rfl : rest = t := h
    exact .nil
  | cons v vs ih =>
    obtain ⟨⟨hvalid, hw⟩, hvs⟩ := List.forall_mem_cons.1 hv
    rw [List.flatMap_cons, List.append_assoc] at h
    refine .cons (nextValue_of_rest_eq hvalid hw h) ?_
    exact ih (i := { i with rest := _ }) hvs rfl

theorem Run.allValues_eq (h : Run i vs j) (hj : j.rest = []) : i.allValues = (.ok vs, j) := by
  induction h with
  | nil => exact allValues_of_rest_eq_nil hj
  | cons hv _ ih =>
    rw [allValues_of_nextValue_ok hv, ih hj]
    rfl

/-- The input over what an output under DER makes of values. -/
def stream (options : ReaderOptions) (vs : List Value) : Input :=
  ofOctets options (Output.performAll {} (vs.map .value)).octets

theorem buffer_stream (options : ReaderOptions) (vs : List Value) :
    (stream options vs).buffer = vs.flatMap (Value.octets .der) :=
  Output.octets_performAll_value .der vs

variable {options : ReaderOptions}

/-- The first of the values are read, and behind them stand the others. -/
theorem run_stream (us ts : List Value) (hr : options.rule = .der)
    (hv : ∀ v ∈ us, v.Valid ∧ (v.wire .der).Within options) :
    ∃ j, Run (stream options (us ++ ts)) (us.map (Value.reread .der)) j ∧
      j.position = (us.map (Value.width .der)).sum ∧ j.rest = ts.flatMap (Value.octets .der) := by
  have hbuffer := buffer_stream options (us ++ ts)
  rw [List.flatMap_append] at hbuffer
  rw [← hr] at hv
  have hrest : (stream options (us ++ ts)).rest =
      us.flatMap (Value.octets options.rule) ++ ts.flatMap (Value.octets .der) := by
    rw [hr]
    exact hbuffer
  have hrun := run_of_rest_eq (i := stream options (us ++ ts)) hv hrest
  rw [show (stream options (us ++ ts)).options.rule = .der from hr] at hrun
  refine ⟨_, hrun, ?_, rfl⟩
  simp only [position, hbuffer, List.length_append, Nat.add_sub_cancel,
    Value.length_flatMap_octets]

/-- An output holds what was appended since it was last cleared. From the DER octets of values that
are valid and within the limits, as many values are read, each equal to its own, and nothing
remains. Read one by one, the first of them end where their widths say. -/
theorem stream_read_back :
    (∀ rule steps, (Output.performAll { rule } steps).octets =
      (Output.appended rule steps).flatMap Encoding.octets) ∧
    ∀ options vs, options.rule = .der → (∀ v ∈ vs, v.Valid ∧ (v.wire .der).Within options) →
      (∃ ws j, (stream options vs).allValues = (.ok ws, j) ∧ ws.length = vs.length ∧
        List.Forall₂ (fun w v => w == v) ws vs ∧ j.remaining = 0) ∧
      ∀ n ≤ vs.length, ∃ ws j, Run (stream options vs) ws j ∧ ws.length = n ∧
        List.Forall₂ (fun w v => w == v) ws (vs.take n) ∧
        j.position = ((vs.take n).map (Value.width .der)).sum ∧
        (n = vs.length → j.remaining = 0) := by
  have beq_reread (vs : List Value) :
      List.Forall₂ (fun w v => w == v) (vs.map (Value.reread .der)) vs := by
    rw [List.forall₂_map_left_iff, List.forall₂_same]
    exact fun v _ => Value.reread_der_beq v
  constructor
  · intro rule steps
    rw [Output.performAll_eq]
  intro options vs hr hv
  constructor
  · obtain ⟨j, hrun, -, hrest⟩ := run_stream vs [] hr hv
    rw [List.append_nil] at hrun
    refine ⟨_, j, hrun.allValues_eq hrest, List.length_map _, beq_reread vs, ?_⟩
    rw [remaining, hrest]
    rfl
  · intro n hn
    have htake : ∀ v ∈ vs.take n, v.Valid ∧ (v.wire .der).Within options :=
      fun v h => hv v (List.mem_of_mem_take h)
    obtain ⟨j, hrun, hpos, hrest⟩ := run_stream (vs.take n) (vs.drop n) hr htake
    rw [List.take_append_drop] at hrun
    refine ⟨_, j, hrun, by simpa using hn, beq_reread _, hpos, ?_⟩
    rintro rfl
    rw [remaining, hrest, List.drop_length]
    rfl

def mixedValues : List Value :=
  [.set [.integer (.ofInt 2), .boolean true], .null, .octetString (List.replicate 130 7)]

theorem stream_read_back_mixedValues :
    (∃ ws j, (stream (.ofRule .der) mixedValues).allValues = (.ok ws, j) ∧
      List.Forall₂ (fun w v => w == v) ws mixedValues ∧ j.remaining = 0) ∧
    ∃ ws j, Run (stream (.ofRule .der) mixedValues) ws j ∧ ws.length = 2 ∧ j.position = 10 := by
  have hv : ∀ v ∈ mixedValues, v.Valid ∧ (v.wire .der).Within (.ofRule .der) := by
    simp only [mixedValues, List.forall_mem_cons]
    exact ⟨⟨⟨trivial, trivial, trivial⟩, by cbv, by cbv⟩, ⟨trivial, by cbv, by cbv⟩,
      ⟨trivial, by decide, by decide +kernel⟩, List.forall_mem_nil _⟩
  have hpos : ((mixedValues.take 2).map (Value.width .der)).sum = 10 := by cbv
  obtain ⟨⟨ws, j, hall, -, heq, hend⟩, hfirst⟩ := stream_read_back.2 _ _ rfl hv
  obtain ⟨us, k, hrun, hlen, -, hk, -⟩ := hfirst 2 (by decide)
  exact ⟨⟨ws, j, hall, heq, hend⟩, us, k, hrun, hlen, hk.trans hpos⟩

end Input

end Tlv
