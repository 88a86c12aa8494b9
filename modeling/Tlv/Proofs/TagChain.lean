import Tlv.Proofs.ImplicitTag
import Tlv.Proofs.Reread

/-! # Chains of tags

A value can stand under many tags, some explicit and some implicit. The octets show the explicit
ones as levels, and of implicit ones only the outermost. The declarations bring back the rest:
taken off from the outside, each by its own, the tags leave what the value alone is read as.
-/

namespace Tlv

theorem Value.tag_reread (rule : Rule) (v : Value) : (v.reread rule).tag = v.tag := by
  cases v <;> rfl

/-- One tag of a chain, and how it is put on. Such a tag tells no type. -/
structure Layer where
  isExplicit : Bool
  tag : Tag
  cls_ne : tag.cls ≠ .universal

namespace Layer

def wrap (l : Layer) (base : Value) : Tagged :=
  if l.isExplicit then .explicit l.tag base else .implicit l.tag base

/-- The value under the tags, the first of which stands outermost. -/
def wrapAll (ls : List Layer) (v : Value) : Value :=
  ls.foldr (fun l base => .tagged (l.wrap base)) v

/-- Takes the tag off an object whose base has the tag of the next layer. -/
def peel (l next : Layer) (t : Tagged) : Result Tagged :=
  if l.isExplicit then t.peelTagged else t.reinterpret next.tag

/-- Takes all tags off, down to a base of the universal type `number`. The objects that bear the
tags are given with it. -/
def peelAll (number : UInt32) : Layer → List Layer → Tagged → Result (List Tagged × Value)
  | l, [], t => do return ([t], ← t.resolve l.isExplicit number)
  | l, next :: ls, t => do
    let inner ← l.peel next t
    let (ts, v) ← peelAll number next ls inner
    return (t :: ts, v)

variable {rule : Rule} {v : Value}

@[simp] theorem tag_wrap (l : Layer) (base : Value) : (l.wrap base).tag = l.tag := by
  unfold wrap
  split <;> rfl

theorem valid_wrap (l : Layer) {base : Value} (h : base.Valid) : (l.wrap base).Valid := by
  unfold wrap
  split
  · exact ⟨l.cls_ne, h⟩
  · exact ⟨l.cls_ne, h⟩

theorem valid_wrapAll (ls : List Layer) (h : v.Valid) : (wrapAll ls v).Valid := by
  induction ls with
  | nil => exact h
  | cons l ls ih => exact l.valid_wrap ih

/-! ## What is read under a tag -/

def received (rule : Rule) (l : Layer) (base : Value) : Tagged :=
  .raw l.tag rule ((l.wrap base).held rule)

theorem reread_wrap (l : Layer) (base : Value) :
    Value.reread rule (.tagged (l.wrap base)) = .tagged (l.received rule base) := by
  rw [Value.reread, tag_wrap, received]

/-- An explicit tag comes off with its level, an implicit one is exchanged for the next. -/
theorem peel_received (l next : Layer) (base : Value) :
    l.peel next (l.received rule (.tagged (next.wrap base))) = .ok (next.received rule base) := by
  unfold peel received wrap
  split
  · rw [Tagged.held, ← wrap, reread_wrap]
    rfl
  · rfl

theorem resolve_received {u : UniversalType} (hv : v.Valid) (ht : v.tag = u.tag) (l : Layer) :
    (l.received rule v).resolve l.isExplicit u.number = .ok (v.reread rule) := by
  unfold received wrap
  split
  case isTrue h =>
    rw [h]
    have htag : (v.reread rule).tag = .universal u.number := (v.tag_reread rule).trans ht
    exact if_pos htag
  case isFalse h =>
    rw [Bool.not_eq_true] at h
    have hheld : Value.ofContents u.tag u.tag_ne rule (v.held rule) = .ok (v.reread rule) := by
      simpa only [ht] using Value.ofContents_held hv
    rw [Value.ofContents_universal] at hheld
    rw [h, Value.resolve_raw, Tagged.held, hheld]
    rfl

theorem exists_peelAll_received (rule : Rule) {u : UniversalType} (hv : v.Valid)
    (ht : v.tag = u.tag) (l : Layer) (ls : List Layer) :
    ∃ ts, peelAll u.number l ls (l.received rule (wrapAll ls v)) =
        .ok (l.received rule (wrapAll ls v) :: ts, v.reread rule) ∧
      ts.map Tagged.tag = ls.map tag := by
  induction ls generalizing l with
  | nil =>
    refine ⟨[], ?_, rfl⟩
    rw [peelAll, wrapAll, List.foldr_nil, resolve_received hv ht l]
    rfl
  | cons next ls ih =>
    obtain ⟨ts, hpeel, htags⟩ := ih next
    refine ⟨next.received rule (wrapAll ls v) :: ts, ?_, congrArg (next.tag :: ·) htags⟩
    have hnext : wrapAll (next :: ls) v = .tagged (next.wrap (wrapAll ls v)) := rfl
    rw [peelAll, hnext, peel_received]
    simp only [bind, Except.bind, hpeel]
    rfl

/-! ## Limits -/

theorem depth_wire_withTag (e : Encoding) (tag : Tag) :
    (e.withTag tag).wire.depth = e.wire.depth := by
  cases e <;> rfl

theorem longest_wire_withTag (e : Encoding) (tag : Tag) :
    (e.withTag tag).wire.longest = e.wire.longest := by
  cases e <;> rfl

variable {options : ReaderOptions}

theorem within_of_wrap (l : Layer) {base : Value}
    (h : ((Value.tagged (l.wrap base)).wire rule).Within options) :
    (base.wire rule).Within options := by
  revert h
  unfold wrap
  split
  · rintro ⟨hd, hl⟩
    have hd : max (base.wire rule).depth 0 + 1 ≤ options.depthLimit.toNat := hd
    rw [Value.wire, Value.encoding, Tagged.encoding, Encoding.wire, Wire.longest, Nat.max_le] at hl
    have hl : max (base.wire rule).longest 0 ≤ options.lengthLimit.toNat := hl.2
    exact ⟨by omega, by omega⟩
  · rintro ⟨hd, hl⟩
    rw [Value.wire, Value.encoding, Tagged.encoding] at hd hl
    rw [depth_wire_withTag] at hd
    rw [longest_wire_withTag] at hl
    exact ⟨hd, hl⟩

theorem within_of_wrapAll (ls : List Layer) (h : ((wrapAll ls v).wire rule).Within options) :
    (v.wire rule).Within options := by
  induction ls with
  | nil => exact h
  | cons l ls ih => exact ih (l.within_of_wrap h)

/-- Any chain of tags is taken off by its declarations: a value of universal type under the tags,
written and read under one rule, gives an object for each tag in turn, and at last the very value
that is read when it is written without them. -/
theorem peelAll_wrapAll {n : UInt32} {u : UniversalType} (hu : UniversalType.ofNumber? n = some u)
    (hv : v.Valid) (ht : v.tag = .universal n) (l : Layer) (ls : List Layer)
    (hw : ((wrapAll (l :: ls) v).wire options.rule).Within options) :
    ∃ t ts w, Value.ofOctets options ((wrapAll (l :: ls) v).octets options.rule) =
        .ok (.tagged t) ∧
      peelAll n l ls t = .ok (t :: ts, w) ∧
      (t :: ts).map Tagged.tag = (l :: ls).map tag ∧
      Value.ofOctets options (v.octets options.rule) = .ok w := by
  obtain rfl : u.number = n := by simpa using List.find?_some hu
  obtain ⟨ts, hpeel, htags⟩ := exists_peelAll_received options.rule hv ht l ls
  refine ⟨_, ts, _, ?_, hpeel, congrArg (l.tag :: ·) htags, ?_⟩
  · rw [Value.ofOctets_octets (valid_wrapAll _ hv) rfl hw]
    exact congrArg Except.ok (reread_wrap l _)
  · exact Value.ofOctets_octets hv rfl (within_of_wrapAll _ hw)

theorem peelAll_wrapAll_set :
    ∃ t ts w, Value.ofOctets {}
        [0xA0, 0x80, 0xFF, 40, 0x80, 0x02, 1, 2, 0x01, 1, 0xFF, 0, 0, 0, 0] = .ok (.tagged t) ∧
      peelAll 17 ⟨false, .context 0, by decide⟩ [⟨true, ⟨.application, 3⟩, by decide⟩,
        ⟨false, ⟨.privateUse, 40⟩, by decide⟩] t = .ok (t :: ts, w) ∧
      (t :: ts).map Tagged.tag = [.context 0, ⟨.application, 3⟩, ⟨.privateUse, 40⟩] ∧
      Value.ofOctets {} [0x31, 0x80, 0x02, 1, 2, 0x01, 1, 0xFF, 0, 0] = .ok w := by
  let v : Value := .set [.integer (.ofInt 2), .boolean true]
  have hv : v.Valid := ⟨trivial, trivial, trivial⟩
  have hu : UniversalType.ofNumber? 17 = some .set := by decide
  have hd : v.octets .ber = [0x31, 0x80, 0x02, 1, 2, 0x01, 1, 0xFF, 0, 0] := by cbv
  have hchain : (wrapAll [⟨false, .context 0, by decide⟩, ⟨true, ⟨.application, 3⟩, by decide⟩,
      ⟨false, ⟨.privateUse, 40⟩, by decide⟩] v).octets .ber =
      [0xA0, 0x80, 0xFF, 40, 0x80, 0x02, 1, 2, 0x01, 1, 0xFF, 0, 0, 0, 0] := by cbv
  rw [← hd, ← hchain]
  exact peelAll_wrapAll hu hv rfl _ _ ⟨by cbv, by cbv⟩

end Layer

end Tlv
