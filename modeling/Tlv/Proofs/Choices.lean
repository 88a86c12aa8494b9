import Mathlib.Logic.Basic
import Tlv.Certificate.DirectoryString
import Tlv.Certificate.Time
import Tlv.Proofs.Reread

/-! # Choices between strings

A choice between character strings has an alternative for each of some kinds. The kind of a string
is its tag, and so a value is of one alternative at most, whichever is tried first. Under an explicit
tag the alternative is found again from the octets, since the string keeps its own tag there.
-/

namespace Tlv

open Certificate

namespace Choice

variable {α : Type} {as bs : List (Value → Result (Option α))} {v : Value} {x : α}

/-! ## The first of several alternatives -/

/-- No alternative fails on the value. -/
def Total (as : List (Value → Result (Option α))) (v : Value) : Prop :=
  ∀ a ∈ as, ∃ r, a v = .ok r

/-- Of any two alternatives, one at least passes the value. -/
def Apart (as : List (Value → Result (Option α))) (v : Value) : Prop :=
  as.Pairwise fun a b => a v = .ok none ∨ b v = .ok none

theorem firstOf_cons_none {a : Value → Result (Option α)} (h : a v = .ok none) :
    firstOf (a :: as) v = firstOf as v := by
  rw [firstOf, h]

theorem firstOf_cons_some {a : Value → Result (Option α)} (h : a v = .ok (some x)) :
    firstOf (a :: as) v = .ok (some x) := by
  rw [firstOf, h]

theorem exists_firstOf_eq (ht : Total as v) : ∃ r, firstOf as v = .ok r := by
  induction as with
  | nil => exact ⟨none, rfl⟩
  | cons a as ih =>
    obtain ⟨⟨r, hr⟩, hrest⟩ := List.forall_mem_cons.1 ht
    cases r with
    | none =>
      rw [firstOf_cons_none hr]
      exact ih hrest
    | some x => exact ⟨some x, firstOf_cons_some hr⟩

theorem firstOf_eq_some_iff (ht : Total as v) (ha : Apart as v) :
    firstOf as v = .ok (some x) ↔ ∃ a ∈ as, a v = .ok (some x) := by
  induction as with
  | nil => simp [firstOf]
  | cons a as ih =>
    obtain ⟨⟨r, hr⟩, ht⟩ := List.forall_mem_cons.1 ht
    obtain ⟨hapart, ha⟩ := List.pairwise_cons.1 ha
    cases r with
    | none => simp [firstOf_cons_none hr, ih ht ha, hr]
    | some y =>
      have hothers : ∀ b ∈ as, b v = .ok none := by
        intro b hb
        exact (hapart b hb).resolve_left (by simp [hr])
      simp only [firstOf_cons_some hr, List.exists_mem_cons_iff, hr, iff_self_or]
      rintro ⟨b, hb, hx⟩
      simp [hothers b hb] at hx

/-- Where no two alternatives take the value, their order does not matter. -/
theorem firstOf_eq_of_perm (hp : as.Perm bs) (ht : Total bs v) (ha : Apart bs v) :
    firstOf as v = firstOf bs v := by
  have hta : Total as v := fun a h => ht a (hp.mem_iff.1 h)
  have haa : Apart as v := (hp.pairwise_iff Or.symm).2 ha
  obtain ⟨r, hr⟩ := exists_firstOf_eq hta
  obtain ⟨r', hr'⟩ := exists_firstOf_eq ht
  have hsome (x : α) : firstOf as v = .ok (some x) ↔ firstOf bs v = .ok (some x) := by
    simp only [firstOf_eq_some_iff hta haa, firstOf_eq_some_iff ht ha, hp.mem_iff]
  simp only [hr, hr', Except.ok.injEq] at hsome ⊢
  exact Option.ext hsome

/-! ## Alternatives by kind -/

def stringAlternative (kind : StringType) (build : Octets → α) : Value → Result (Option α) :=
  alternative (UniversalSchema.string kind).toSchema fun s => build s.octets

variable {kind : StringType} {build : Octets → α}

theorem stringAlternative_string (s : CharString) :
    stringAlternative kind build (.string s) =
      .ok (if s.kind = kind then some (build s.octets) else none) := by
  by_cases h : s.kind = kind <;>
    simp [stringAlternative, alternative, UniversalSchema.string, UniversalSchema.ofView,
      Schema.ofView, Schema.optional, Except.map, h]

theorem exists_stringAlternative_eq (kind : StringType) (build : Octets → α) (v : Value) :
    ∃ r, stringAlternative kind build v = .ok r := by
  cases v with
  | string s => exact ⟨_, stringAlternative_string s⟩
  | _ => exact ⟨none, rfl⟩

theorem stringAlternative_eq_some_iff :
    stringAlternative kind build v = .ok (some x) ↔
      ∃ s, v = .string ⟨kind, s⟩ ∧ x = build s := by
  cases v with
  | string s =>
    rw [stringAlternative_string, Except.ok.injEq, Option.ite_none_right_eq_some]
    constructor
    · rintro ⟨rfl, hx⟩
      exact ⟨s.octets, rfl, (Option.some.inj hx).symm⟩
    · rintro ⟨s, hs, rfl⟩
      cases hs
      exact ⟨rfl, rfl⟩
  | _ =>
    constructor
    · intro h
      cases h
    · rintro ⟨s, hs, -⟩
      cases hs

theorem stringAlternative_apart {kind' : StringType} {build' : Octets → α} (h : kind ≠ kind')
    (v : Value) :
    stringAlternative kind build v = .ok none ∨ stringAlternative kind' build' v = .ok none := by
  obtain ⟨r, hr⟩ := exists_stringAlternative_eq kind build v
  obtain ⟨r', hr'⟩ := exists_stringAlternative_eq kind' build' v
  cases r with
  | none => exact .inl hr
  | some x =>
    cases r' with
    | none => exact .inr hr'
    | some y =>
      obtain ⟨s, rfl, -⟩ := stringAlternative_eq_some_iff.1 hr
      obtain ⟨s', hs, -⟩ := stringAlternative_eq_some_iff.1 hr'
      cases hs
      exact absurd rfl h

/-- How the alternatives of a choice are told apart: one for each kind, in this order, with the
kind and the octets of a string in the alternative. -/
structure HasArms (c : Choice α) (toValue : α → Value)
    (arms : List (StringType × (Octets → α))) : Prop where
  alternatives_eq : c.alternatives = arms.map fun arm => stringAlternative arm.1 arm.2
  nodup : (arms.map Prod.fst).Nodup
  toValue_arm : ∀ arm ∈ arms, ∀ s, toValue (arm.2 s) = .string ⟨arm.1, s⟩
  exists_arm : ∀ x, ∃ arm ∈ arms, ∃ s, x = arm.2 s

/-- A choice between the strings of some kinds, which can be told apart and found again. -/
structure OfKinds (c : Choice α) (toValue : α → Value) (kinds : List StringType) : Prop where
  total : ∀ v, Total c.alternatives v
  apart : ∀ v, Apart c.alternatives v
  select_of_perm : ∀ as, as.Perm c.alternatives → ∀ v, firstOf as v = c.select v
  exists_select_iff : ∀ v, (∃ x, c.select v = .ok (some x)) ↔ ∃ s, v = .string s ∧ s.kind ∈ kinds
  toValue_of_select : ∀ v x, c.select v = .ok (some x) → toValue x = v
  /-- The octets of an alternative under an explicit tag are read as an object that has it. -/
  read_back : ∀ (options : ReaderOptions) (tag : Tag) x, tag.cls ≠ .universal →
    ((Value.tagged (.explicit tag (toValue x))).wire options.rule).Within options →
    ∃ t, Value.ofOctets options
        ((Value.tagged (.explicit tag (toValue x))).octets options.rule) = .ok (.tagged t) ∧
      c.ofTagged true t = .ok x
  implicit_refused : ∀ t, ∃ e, c.ofTagged false t = .error e ∧ e.kind = .schemaContract

namespace HasArms

variable {c : Choice α} {toValue : α → Value} {arms : List (StringType × (Octets → α))}

theorem total (h : c.HasArms toValue arms) (v : Value) : Total c.alternatives v := by
  intro a ha
  rw [h.alternatives_eq] at ha
  obtain ⟨arm, -, rfl⟩ := List.mem_map.1 ha
  exact exists_stringAlternative_eq _ _ v

theorem apart (h : c.HasArms toValue arms) (v : Value) : Apart c.alternatives v := by
  rw [Apart, h.alternatives_eq, List.pairwise_map]
  exact (List.pairwise_map.1 h.nodup).imp fun hne => stringAlternative_apart hne v

theorem select_eq_some_iff (h : c.HasArms toValue arms) :
    c.select v = .ok (some x) ↔ v = toValue x := by
  rw [select, firstOf_eq_some_iff (h.total v) (h.apart v), h.alternatives_eq]
  simp only [List.mem_map, exists_exists_and_eq_and, stringAlternative_eq_some_iff]
  constructor
  · rintro ⟨arm, harm, s, rfl, rfl⟩
    exact (h.toValue_arm arm harm s).symm
  · rintro rfl
    obtain ⟨arm, harm, s, rfl⟩ := h.exists_arm x
    exact ⟨arm, harm, s, h.toValue_arm arm harm s, rfl⟩

theorem exists_eq_toValue_iff (h : c.HasArms toValue arms) :
    (∃ x, v = toValue x) ↔ ∃ s, v = .string s ∧ s.kind ∈ arms.map Prod.fst := by
  constructor
  · rintro ⟨x, rfl⟩
    obtain ⟨arm, harm, s, rfl⟩ := h.exists_arm x
    exact ⟨_, h.toValue_arm arm harm s, List.mem_map_of_mem harm⟩
  · rintro ⟨s, rfl, hs⟩
    obtain ⟨arm, harm, hkind⟩ := List.mem_map.1 hs
    exact ⟨arm.2 s.octets, by rw [h.toValue_arm arm harm, hkind]⟩

theorem ofValue_toValue (h : c.HasArms toValue arms) (x : α) : c.ofValue (toValue x) = .ok x := by
  rw [ofValue, h.select_eq_some_iff.2 rfl]
  rfl

theorem read_back (h : c.HasArms toValue arms) {options : ReaderOptions} {tag : Tag}
    (hcls : tag.cls ≠ .universal)
    (hw : ((Value.tagged (.explicit tag (toValue x))).wire options.rule).Within options) :
    ∃ t, Value.ofOctets options
        ((Value.tagged (.explicit tag (toValue x))).octets options.rule) = .ok (.tagged t) ∧
      c.ofTagged true t = .ok x := by
  obtain ⟨s, hs, -⟩ := h.exists_eq_toValue_iff.1 ⟨x, rfl⟩
  have hvalid : (Value.tagged (.explicit tag (toValue x))).Valid := by
    rw [hs]
    exact ⟨hcls, trivial⟩
  have hreread : (toValue x).reread options.rule = toValue x := by
    rw [hs]
    rfl
  refine ⟨.raw tag options.rule (.constructed [toValue x]), ?_, h.ofValue_toValue x⟩
  rw [Value.ofOctets_octets hvalid rfl hw, Value.reread, Tagged.held, hreread]
  rfl

theorem ofKinds (h : c.HasArms toValue arms) : c.OfKinds toValue (arms.map Prod.fst) where
  total := h.total
  apart := h.apart
  select_of_perm as hp v := firstOf_eq_of_perm hp (h.total v) (h.apart v)
  exists_select_iff v := by
    simp only [h.select_eq_some_iff]
    exact h.exists_eq_toValue_iff
  toValue_of_select v x hx := (h.select_eq_some_iff.1 hx).symm
  read_back options tag x hcls hw := h.read_back hcls hw
  implicit_refused t := ⟨_, rfl, rfl⟩

end HasArms

theorem time_hasArms :
    Time.choice.HasArms Time.toValue [(.utcTime, .utc), (.generalizedTime, .generalized)] where
  alternatives_eq := rfl
  nodup := by decide
  toValue_arm := by simp [Time.toValue, Time.string]
  exists_arm x := by cases x <;> simp

theorem directoryString_hasArms :
    DirectoryString.choice.HasArms DirectoryString.toValue
      [(.t61, .teletex), (.printable, .printable), (.universal, .universal), (.utf8, .utf8),
        (.bmp, .bmp)] where
  alternatives_eq := rfl
  nodup := by decide
  toValue_arm := by simp [DirectoryString.toValue, DirectoryString.string]
  exists_arm x := by cases x <;> simp

/-- Times and directory strings are choices between kinds of strings. No alternative fails, one at
most takes a value, and so their order does not matter. The strings of the kinds are what is taken,
and the alternative has the value that it was taken from. Under a tag an alternative is found again
from its octets by any rule, if the tag is declared explicit, and never otherwise. -/
theorem choices_of_strings :
    Time.choice.OfKinds Time.toValue [.utcTime, .generalizedTime] ∧
      DirectoryString.choice.OfKinds DirectoryString.toValue
        [.t61, .printable, .universal, .utf8, .bmp] :=
  ⟨time_hasArms.ofKinds, directoryString_hasArms.ofKinds⟩

theorem choices_of_strings_accented :
    TagClass.context ≠ .universal ∧
      ((Value.tagged (.explicit (.context 0) (.string ⟨.utf8, [0xC3, 0xA9]⟩))).wire .ber).Within {} ∧
      CharString.text ⟨.utf8, [0xC3, 0xA9]⟩ = .ok "é" ∧
      ∃ t, Value.ofOctets {} [0xA0, 0x80, 0x0C, 0x02, 0xC3, 0xA9, 0x00, 0x00] = .ok (.tagged t) ∧
        DirectoryString.choice.ofTagged true t = .ok (.utf8 [0xC3, 0xA9]) := by
  obtain ⟨-, hstring⟩ := choices_of_strings
  have hw : ((Value.tagged (.explicit (.context 0) (.string ⟨.utf8, [0xC3, 0xA9]⟩))).wire
      .ber).Within {} := ⟨by cbv, by cbv⟩
  have hs : (Value.tagged (.explicit (.context 0) (.string ⟨.utf8, [0xC3, 0xA9]⟩))).octets .ber =
      [0xA0, 0x80, 0x0C, 0x02, 0xC3, 0xA9, 0x00, 0x00] := by cbv
  rw [← hs]
  exact ⟨by decide, hw, by decide +kernel,
    hstring.read_back {} (.context 0) (.utf8 [0xC3, 0xA9]) (by decide) hw⟩

end Choice

end Tlv
