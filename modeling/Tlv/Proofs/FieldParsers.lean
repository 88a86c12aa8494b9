import Tlv.Fields
import Tlv.Proofs.Contents

/-! # Parsers of fields

A parser of fields is put together from parsers of single fields. What it gives follows from the
elements that stand before it, wherever the SEQUENCE began, and tells what these were. What is known
of all elements is known of those it took.
-/

namespace Tlv

section

variable {α : Type} {tag : Tag} {build : Tagged → Result α} {v : Value} {a : α}

theorem Value.under?_eq_some_iff :
    v.under? tag build = .ok (some a) ↔ ∃ t, v = .tagged t ∧ t.tag = tag ∧ build t = .ok a := by
  cases v with
  | tagged t =>
    rw [Value.under?, Tagged.under?]
    split
    · rename_i ht
      simp [except_map_eq_ok_iff, ht]
    · rename_i ht
      simp [ht]
  | _ => simp [Value.under?]

theorem Value.under?_of_tag_ne (h : v.tag ≠ tag) : v.under? tag build = .ok none := by
  cases v with
  | tagged t => exact if_neg h
  | _ => rfl

end

namespace FieldParser

variable {α β : Type} {p : FieldParser α} {f : α → FieldParser β} {a : α} {b : β} {v : Value}
  {us vs ws : List Value} {tag : Tag} {t : Tagged}

/-! ## From elements to a result -/

/-- Where the elements `us` are not yet taken, the parser gives `a` and leaves `vs`. -/
def Yields (p : FieldParser α) (us : List Value) (a : α) (vs : List Value) : Prop :=
  ∀ fs : Fields, fs.unread = us → ∃ gs, p fs = .ok a gs ∧ gs.unread = vs

theorem yields_pure (a : α) (vs : List Value) : Yields (pure a) vs a vs :=
  fun fs h => ⟨fs, rfl, h⟩

theorem Yields.bind (hp : p.Yields us a vs) (hf : (f a).Yields vs b ws) :
    (p >>= f).Yields us b ws := by
  intro fs h
  obtain ⟨gs, hgs, hunread⟩ := hp fs h
  obtain ⟨hs, hhs, hrest⟩ := hf gs hunread
  exact ⟨hs, bind_eq_ok_iff.2 ⟨a, gs, hgs, hhs⟩, hrest⟩

theorem yields_next {build : Value → Result α} (h : build v = .ok a) (vs : List Value) :
    (next build).Yields (v :: vs) a vs := by
  intro fs hfs
  have hv : fs.head? = some v := by rw [fs.head?_eq_head?_unread, hfs, List.head?_cons]
  have hvs : fs.advance.unread = vs := by rw [fs.unread_advance, hfs, List.tail_cons]
  exact ⟨fs.advance, next_eq_ok_iff.2 ⟨v, hv, h, rfl⟩, hvs⟩

theorem yields_next?_some {build : Value → Result (Option α)} (h : build v = .ok (some a))
    (vs : List Value) : (next? build).Yields (v :: vs) (some a) vs := by
  intro fs hfs
  have hv : fs.head? = some v := by rw [fs.head?_eq_head?_unread, hfs, List.head?_cons]
  have hvs : fs.advance.unread = vs := by rw [fs.unread_advance, hfs, List.tail_cons]
  exact ⟨fs.advance, next?_eq_ok_iff.2 (.inr ⟨v, hv, h, rfl⟩), hvs⟩

/-- An optional field is absent if the element in its place is passed over, or if there is none. -/
theorem yields_next?_none {build : Value → Result (Option α)}
    (h : ∀ v ∈ vs.head?, build v = .ok none) : (next? build).Yields vs none vs := by
  intro fs hfs
  have hhead : fs.head? = vs.head? := by rw [fs.head?_eq_head?_unread, hfs]
  refine ⟨fs, next?_eq_ok_iff.2 ?_, hfs⟩
  cases vs with
  | nil => exact .inl ⟨hhead, rfl, rfl⟩
  | cons v vs => exact .inr ⟨v, hhead, h v rfl, rfl⟩

theorem yields_tagged?_some {build : Tagged → Result α} (ht : t.tag = tag) (h : build t = .ok a)
    (vs : List Value) : (tagged? tag build).Yields (.tagged t :: vs) (some a) vs := by
  rw [tagged?_eq]
  exact yields_next?_some (Value.under?_eq_some_iff.2 ⟨t, rfl, ht, h⟩) vs

theorem yields_tagged?_none {build : Tagged → Result α} (h : ∀ v ∈ vs, v.tag ≠ tag) :
    (tagged? tag build).Yields vs none vs := by
  rw [tagged?_eq]
  exact yields_next?_none fun v hv => Value.under?_of_tag_ne (h v (List.mem_of_mem_head? hv))

theorem parse_of_yields (h : p.Yields us a []) : parse p us = .ok a := by
  obtain ⟨gs, hgs, hunread⟩ := h (.ofElements us) rfl
  exact parse_eq_ok_iff.2 ⟨gs, hgs, hunread⟩

/-! ## From a result to the elements before the parser -/

/-- At some position behind which `us` stand, the parser gives `a` and leaves `vs`. -/
def Leaves (p : FieldParser α) (us : List Value) (a : α) (vs : List Value) : Prop :=
  ∃ fs gs : Fields, fs.unread = us ∧ p fs = .ok a gs ∧ gs.unread = vs

theorem Leaves.pure_eq {c : α} (h : Leaves (pure a) us c vs) : a = c ∧ us = vs := by
  obtain ⟨fs, gs, rfl, hgs, rfl⟩ := h
  cases hgs
  exact ⟨rfl, rfl⟩

theorem Leaves.of_bind (h : (p >>= f).Leaves us b ws) :
    ∃ a vs, p.Leaves us a vs ∧ (f a).Leaves vs b ws := by
  obtain ⟨fs, hs, rfl, hhs, rfl⟩ := h
  obtain ⟨a, gs, hgs, hhs⟩ := bind_eq_ok_iff.1 hhs
  exact ⟨a, gs.unread, ⟨fs, gs, rfl, hgs, rfl⟩, gs, hs, rfl, hhs, rfl⟩

theorem Leaves.of_next {build : Value → Result α} (h : (next build).Leaves us a vs) :
    ∃ v, us = v :: vs ∧ build v = .ok a := by
  obtain ⟨fs, gs, rfl, hgs, rfl⟩ := h
  obtain ⟨v, hv, ha, rfl⟩ := next_eq_ok_iff.1 hgs
  exact ⟨v, fs.unread_eq_cons hv, ha⟩

theorem Leaves.of_next? {build : Value → Result (Option α)} {r : Option α}
    (h : (next? build).Leaves us r vs) :
    (∃ v a, r = some a ∧ us = v :: vs ∧ build v = .ok (some a)) ∨ r = none ∧ us = vs := by
  obtain ⟨fs, gs, rfl, hgs, rfl⟩ := h
  rcases next?_eq_ok_iff.1 hgs with ⟨-, rfl, rfl⟩ | ⟨v, hv, hr, rfl⟩
  · exact .inr ⟨rfl, rfl⟩
  · cases r with
    | none => exact .inr ⟨rfl, rfl⟩
    | some a => exact .inl ⟨v, a, rfl, fs.unread_eq_cons hv, hr⟩

theorem Leaves.of_tagged? {build : Tagged → Result α} {r : Option α}
    (h : (tagged? tag build).Leaves us r vs) :
    (∃ t a, r = some a ∧ us = .tagged t :: vs ∧ t.tag = tag ∧ build t = .ok a) ∨
      r = none ∧ us = vs := by
  rw [tagged?_eq] at h
  rcases h.of_next? with ⟨v, a, rfl, rfl, hv⟩ | h
  · obtain ⟨t, rfl, ht, ha⟩ := Value.under?_eq_some_iff.1 hv
    exact .inl ⟨t, a, rfl, rfl, ht, ha⟩
  · exact .inr h

theorem leaves_of_parse (h : parse p us = .ok a) : p.Leaves us a [] := by
  obtain ⟨gs, hgs, hunread⟩ := parse_eq_ok_iff.1 h
  exact ⟨.ofElements us, gs, rfl, hgs, hunread⟩

/-! ## From a result to all elements -/

/-- If `P` holds of all elements, `Q` holds of what the parser gives. -/
def Ensures (p : FieldParser α) (P : Value → Prop) (Q : α → Prop) : Prop :=
  ∀ fs a gs, (∀ v ∈ fs.elements, P v) → p fs = .ok a gs → gs.elements = fs.elements ∧ Q a

variable {P : Value → Prop} {Q : α → Prop} {R : β → Prop}

theorem ensures_pure (h : Q a) : Ensures (pure a) P Q := by
  intro fs _ _ _ hgs
  cases hgs
  exact ⟨rfl, h⟩

theorem Ensures.bind (hp : p.Ensures P Q) (hf : ∀ a, Q a → (f a).Ensures P R) :
    (p >>= f).Ensures P R := by
  intro fs b hs hfs h
  obtain ⟨a, gs, hgs, hhs⟩ := bind_eq_ok_iff.1 h
  obtain ⟨helements, ha⟩ := hp fs a gs hfs hgs
  obtain ⟨helements', hb⟩ := hf a ha gs b hs (helements ▸ hfs) hhs
  exact ⟨helements'.trans helements, hb⟩

theorem ensures_next {build : Value → Result α} (h : ∀ v a, P v → build v = .ok a → Q a) :
    (next build).Ensures P Q := by
  intro fs a gs hfs hgs
  obtain ⟨v, hv, ha, rfl⟩ := next_eq_ok_iff.1 hgs
  exact ⟨rfl, h v a (hfs v (List.mem_of_getElem? hv)) ha⟩

theorem ensures_next? {build : Value → Result (Option α)}
    (h : ∀ v a, P v → build v = .ok (some a) → Q a) :
    (next? build).Ensures P fun r => ∀ a ∈ r, Q a := by
  intro fs r gs hfs hgs
  rcases next?_eq_ok_iff.1 hgs with ⟨-, rfl, rfl⟩ | ⟨v, hv, hr, rfl⟩
  · exact ⟨rfl, nofun⟩
  · refine ⟨by split <;> rfl, ?_⟩
    rintro a rfl
    exact h v a (hfs v (List.mem_of_getElem? hv)) hr

theorem ensures_tagged? {build : Tagged → Result α}
    (h : ∀ t a, P (.tagged t) → build t = .ok a → Q a) :
    (tagged? tag build).Ensures P fun r => ∀ a ∈ r, Q a := by
  rw [tagged?_eq]
  refine ensures_next? fun v a hv ha => ?_
  obtain ⟨t, rfl, -, ha⟩ := Value.under?_eq_some_iff.1 ha
  exact h t a hv ha

theorem Ensures.parse (h : p.Ensures P Q) (hvs : ∀ v ∈ vs, P v)
    (ha : FieldParser.parse p vs = .ok a) : Q a := by
  obtain ⟨gs, hgs, -⟩ := parse_eq_ok_iff.1 ha
  exact (h _ _ gs hvs hgs).2

end FieldParser

end Tlv
