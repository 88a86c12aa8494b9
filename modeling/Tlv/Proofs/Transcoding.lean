import Mathlib.Data.List.Permutation
import Tlv.Proofs.Acceptance
import Tlv.Proofs.Reread

/-! # Transcoding

The reader leaves every tag below class UNIVERSAL uninterpreted, so a value that was received has
raw tagged objects only. No implicit tag hides anything in it, and it can be written under any rule
and read back, over and over, without a change to its DER octets.
-/

namespace Tlv

/-- As the recursor of `Denotes`, whose elements stand in a list. -/
@[elab_as_elim]
theorem Wire.Denotes.induct {rule : Rule} {motive : Wire → Value → Prop}
    (primitive : ∀ (h : Header) (s : Octets) (v : Value) (hn : h.tag ≠ .endOfContents),
      Value.ofContents h.tag hn rule (.primitive s) = .ok v → motive (.primitive h s) v)
    (constructed : ∀ (h : Header) (ws : List Wire) (vs : List Value) (v : Value)
      (hn : h.tag ≠ .endOfContents), List.Forall₂ motive ws vs →
      Value.ofContents h.tag hn rule (.constructed vs) = .ok v → motive (.constructed h ws) v)
    {w : Wire} {v : Value} (h : w.Denotes rule v) : motive w v := by
  cases h with
  | primitive hn hv => exact primitive _ _ _ hn hv
  | @constructed h ws vs v hn hs hv =>
    refine constructed h ws vs v hn (forall₂_imp_of_mem hs fun w hw v _ hd => ?_) hv
    exact hd.induct primitive constructed
termination_by sizeOf w

mutual

/-- A value that could have been read under the rule. Its tagged objects are raw, and its bit
strings are as the rule wants them. -/
def Value.Received (rule : Rule) : Value → Prop
  | .bitString b => rule = .der → b.cleared = b.data
  | .sequence vs | .set vs => Value.AllReceived rule vs
  | .tagged t => t.Received rule
  | .unknown _ c => c.Received rule
  | _ => True

def Tagged.Received (rule : Rule) : Tagged → Prop
  | .raw tag r c => tag.cls ≠ .universal ∧ r = rule ∧ c.Received rule
  | _ => False

def Contents.Received (rule : Rule) : Contents → Prop
  | .primitive _ => True
  | .constructed vs => Value.AllReceived rule vs

def Value.AllReceived (rule : Rule) : List Value → Prop
  | [] => True
  | v :: vs => v.Received rule ∧ Value.AllReceived rule vs

end

namespace Value

variable {rule : Rule} {v w : Value} {vs : List Value}

theorem allReceived_iff : AllReceived rule vs ↔ ∀ v ∈ vs, v.Received rule := by
  induction vs with
  | nil => simp [AllReceived]
  | cons v vs ih => simp [AllReceived, ih]

theorem received_of_ofContents {tag : Tag} {hn : tag ≠ .endOfContents} {c : Contents}
    (hc : c.Received rule) (h : ofContents tag hn rule c = .ok v) : v.Received rule := by
  rcases ofContents_cases h with ⟨hcls, rfl⟩ | ⟨n, -, rfl⟩ | ⟨u, -, hu⟩
  · exact ⟨hcls, rfl, hc⟩
  · exact hc
  · cases hu with
    | bitString hr => exact hr
    | sequence vs => exact hc
    | set vs => exact hc
    | bitSegments hr _ _ =>
      rintro rfl
      cases hr
    | _ => exact trivial

theorem received_of_denotes {u : Wire} (h : u.Denotes rule v) : v.Received rule := by
  refine h.induct ?_ ?_
  · intro _ s _ _ hv
    exact received_of_ofContents (c := .primitive s) trivial hv
  · intro _ _ vs _ _ hs hv
    have hvs : AllReceived rule vs := allReceived_iff.2 (forall_mem_of_forall₂_right hs)
    exact received_of_ofContents (c := .constructed vs) hvs hv

theorem received_of_ofOctets {options : ReaderOptions} {s : Octets}
    (h : ofOctets options s = .ok v) : v.Received options.rule := by
  obtain ⟨w, -, hw⟩ := ofOctets_eq_ok_iff.1 h
  exact received_of_denotes hw.denotes

end Value

section

variable {rule : Rule}

mutual

/-- A received value is valid, and no implicit tag hides anything in it. -/
theorem Value.Received.valid_settled : ∀ {v : Value}, v.Received rule → v.Valid ∧ v.Settled
  | .sequence _, h | .set _, h => Value.AllReceived.valid_settled h
  | .tagged (.raw _ _ _), h =>
    have hc := Contents.Received.valid_settled h.2.2
    ⟨⟨h.1, hc.1⟩, hc.2⟩
  | .tagged (.explicit _ _), h | .tagged (.implicit _ _), h => h.elim
  | .unknown _ _, h => Contents.Received.valid_settled h
  | .boolean _, _ | .integer _, _ | .bitString _, _ | .octetString _, _ | .null, _ | .oid _, _
  | .enumerated _, _ | .string _, _ => ⟨trivial, trivial⟩

theorem Contents.Received.valid_settled : ∀ {c : Contents}, c.Received rule → c.Valid ∧ c.Settled
  | .primitive _, _ => ⟨trivial, trivial⟩
  | .constructed _, h => Value.AllReceived.valid_settled h

theorem Value.AllReceived.valid_settled : ∀ {vs : List Value}, Value.AllReceived rule vs →
    Value.AllValid vs ∧ Value.AllSettled vs
  | [], _ => ⟨trivial, trivial⟩
  | _ :: _, h =>
    have hv := Value.Received.valid_settled h.1
    have hvs := Value.AllReceived.valid_settled h.2
    ⟨⟨hv.1, hvs.1⟩, hv.2, hvs.2⟩

end

end

namespace Value

variable {rule : Rule} {v w x : Value}

theorem Received.exists_recoded {options : ReaderOptions} (h : v.Received rule)
    (hw : (v.wire options.rule).Within options) :
    ∃ w, ofOctets options (v.octets options.rule) = .ok w ∧ w == v ∧ w.der = v.der := by
  obtain ⟨hv, hs⟩ := h.valid_settled
  have heq : v.reread options.rule == v := reread_beq v fun _ => hs
  exact ⟨_, ofOctets_octets hv rfl hw, heq, der_eq_of_beq heq⟩

/-- `w` is what is read when `v` is written under the rule of some options that have room for it. -/
def Recodes (v w : Value) : Prop :=
  ∃ options : ReaderOptions, (v.wire options.rule).Within options ∧
    ofOctets options (v.octets options.rule) = .ok w

theorem Recodes.received_beq (h : v.Recodes w) (hv : v.Received rule) :
    (∃ r, w.Received r) ∧ w == v := by
  obtain ⟨options, hw, hr⟩ := h
  obtain ⟨x, hx, heq, -⟩ := hv.exists_recoded hw
  obtain rfl : x = w := Except.ok.inj (hx.symm.trans hr)
  exact ⟨⟨_, received_of_ofOctets hr⟩, heq⟩

theorem received_beq_of_recodings (hv : v.Received rule) (h : Relation.ReflTransGen Recodes v w) :
    (∃ r, w.Received r) ∧ w == v := by
  induction h with
  | refl => exact ⟨⟨rule, hv⟩, beq_refl v⟩
  | tail _ hstep ih =>
    obtain ⟨⟨r, hr⟩, heq⟩ := ih
    obtain ⟨hx, hstep⟩ := hstep.received_beq hr
    exact ⟨hx, beq_trans hstep heq⟩

/-- A value that was read can be written under any rule and read again as an equal value. So can
all values that a chain of such steps leads to, and the DER octets never change. -/
theorem transcoding {options : ReaderOptions} {s : Octets} (h : ofOctets options s = .ok v) :
    (∀ o : ReaderOptions, (v.wire o.rule).Within o →
      ∃ w, ofOctets o (v.octets o.rule) = .ok w ∧ w == v ∧ w.der = v.der) ∧
    ∀ w, Relation.ReflTransGen Recodes v w → w == v ∧ w.der = v.der ∧
      ∀ o : ReaderOptions, (w.wire o.rule).Within o →
        ∃ x, ofOctets o (w.octets o.rule) = .ok x ∧ x == v ∧ x.der = v.der := by
  have hv := received_of_ofOctets h
  constructor
  · intro o ho
    exact hv.exists_recoded ho
  · intro w hw
    obtain ⟨⟨r, hr⟩, heq⟩ := received_beq_of_recodings hv hw
    refine ⟨heq, der_eq_of_beq heq, fun o ho => ?_⟩
    obtain ⟨x, hx, hxw, hder⟩ := hr.exists_recoded ho
    exact ⟨x, hx, beq_trans hxw heq, hder.trans (der_eq_of_beq heq)⟩

/-- A SET against its order, with unused bits set and a string in segments, below a tag that tells
nothing of it. -/
def looseOctets : Octets :=
  [0xA0, 0x80, 0x31, 0x80, 0x24, 0x80, 0x04, 1, 7, 0x04, 1, 8, 0, 0, 0x03, 2, 4, 0xFF,
    0x01, 0x81, 1, 5, 0, 0, 0, 0]

def looseValue : Value :=
  .tagged (.raw (.context 0) .ber (.constructed [.set [.octetString [7, 8],
    .bitString ⟨4, [0xFF], by decide, by decide⟩, .boolean true]]))

theorem transcoding_looseOctets :
    ∃ w x, ofOctets (.ofRule .dl) (looseValue.octets .dl) = .ok w ∧
      ofOctets (.ofRule .der) (w.octets .der) = .ok x ∧ x == looseValue ∧
      x.der = [0xA0, 13, 0x31, 11, 0x01, 1, 0xFF, 0x03, 2, 4, 0xF0, 0x04, 2, 7, 8] := by
  have h : ofOctets (.ofRule .ber) looseOctets = .ok looseValue := by cbv
  have hv : looseValue.Valid := (received_of_ofOctets h).valid_settled.1
  have hd : (looseValue.wire .dl).Within (.ofRule .dl) := ⟨by cbv, by cbv⟩
  have hw : ofOctets (.ofRule .dl) (looseValue.octets .dl) = .ok (looseValue.reread .dl) :=
    ofOctets_octets hv rfl hd
  have hder : looseValue.der =
      [0xA0, 13, 0x31, 11, 0x01, 1, 0xFF, 0x03, 2, 4, 0xF0, 0x04, 2, 7, 8] := by cbv
  obtain ⟨-, -, hnext⟩ := (transcoding h).2 _ (.single ⟨.ofRule .dl, hd, hw⟩)
  obtain ⟨x, hx, heq, hxd⟩ := hnext (.ofRule .der) ⟨by cbv, by cbv⟩
  exact ⟨_, x, hw, hx, heq, hxd.trans hder⟩

end Value

end Tlv
