import Mathlib.Data.List.Nodup
import Mathlib.Data.List.Perm.Subperm
import Tlv.Certificate.Extension
import Tlv.Certificate.Identifiers
import Tlv.Proofs.ObjectIdentifier
import Tlv.Proofs.Schemas

/-! # Blocks of extensions

A list of extensions makes a block unless an identifier occurs twice, and the first one that occurs
again is what is wrong with the list. Blocks that are read come from elements that are read one by
one. Which blocks are the same has nothing to do with the order.
-/

namespace Tlv

namespace Certificate.Extensions

variable {xs ys : Extensions} {e : Extension} {es fs : List Extension} {err : Error} {id : Oid}

theorem eq_of_items_eq (h : xs.items = ys.items) : xs = ys := by
  cases xs
  cases ys
  simpa using h

/-! ## Additions -/

theorem insert_eq_ok_iff :
    xs.insert e = .ok ys ↔ e.id ∉ xs.ids ∧ ys.items = xs.items ++ [e] := by
  unfold insert
  split
  · rename_i h
    simp [ids, h]
  · rename_i h
    constructor
    · intro hys
      cases hys
      exact ⟨h, rfl⟩
    · rintro ⟨-, hys⟩
      exact congrArg Except.ok (eq_of_items_eq hys.symm)

theorem insert_eq_error_iff :
    xs.insert e = .error err ↔ e.id ∈ xs.ids ∧ err = .repeatedExtension e.id.text := by
  unfold insert
  split
  · rename_i h
    simp [ids, h, eq_comm]
  · rename_i h
    simp [ids, h]

theorem exists_insert_of_not_mem (h : e.id ∉ xs.ids) : ∃ ys, xs.insert e = .ok ys :=
  ⟨_, dif_neg h⟩

/-- Extensions are added if their identifiers are new, one after the other. -/
theorem foldlM_insert_eq_ok_iff :
    es.foldlM insert xs = .ok ys ↔ ys.items = xs.items ++ es := by
  induction es generalizing xs with
  | nil =>
    rw [List.append_nil]
    constructor
    · intro h
      cases h
      rfl
    · intro h
      rw [eq_of_items_eq h]
      rfl
  | cons e es ih =>
    rw [List.foldlM_cons, except_bind_eq_ok_iff]
    constructor
    · rintro ⟨zs, hzs, h⟩
      rw [ih.1 h, (insert_eq_ok_iff.1 hzs).2, List.append_assoc]
      rfl
    · intro h
      have hnodup := ys.distinct
      rw [h, ← List.singleton_append, ← List.append_assoc, List.map_append] at hnodup
      have hnew : ((xs.items ++ [e]).map Extension.id).Nodup := hnodup.of_append_left
      refine ⟨⟨xs.items ++ [e], hnew⟩, insert_eq_ok_iff.2 ⟨?_, rfl⟩, ih.2 ?_⟩
      · rw [List.map_append, List.nodup_append'] at hnew
        simpa [ids] using hnew.2.2
      · simpa using h

theorem ofList_eq_ok_iff : ofList es = .ok xs ↔ xs.items = es :=
  foldlM_insert_eq_ok_iff

theorem exists_ofList_iff : (∃ xs, ofList es = .ok xs) ↔ (es.map Extension.id).Nodup := by
  constructor
  · rintro ⟨xs, h⟩
    rw [← ofList_eq_ok_iff.1 h]
    exact xs.distinct
  · intro h
    exact ⟨⟨es, h⟩, ofList_eq_ok_iff.2 rfl⟩

theorem exists_of_foldlM_insert_eq_error (h : es.foldlM insert xs = .error err) :
    ∃ before e after, es = before ++ e :: after ∧
      ((xs.items ++ before).map Extension.id).Nodup ∧
      e.id ∈ (xs.items ++ before).map Extension.id ∧ err = .repeatedExtension e.id.text := by
  induction es generalizing xs with
  | nil => cases h
  | cons e es ih =>
    rw [List.foldlM_cons] at h
    cases hx : xs.insert e with
    | error err' =>
      rw [hx] at h
      cases h
      obtain ⟨hmem, rfl⟩ := insert_eq_error_iff.1 hx
      exact ⟨[], e, es, rfl, by simpa using xs.distinct, by simpa [ids] using hmem, rfl⟩
    | ok zs =>
      rw [hx] at h
      obtain ⟨before, f, after, rfl, hnodup, hmem, rfl⟩ := ih h
      rw [(insert_eq_ok_iff.1 hx).2, List.append_assoc] at hnodup hmem
      exact ⟨e :: before, f, after, rfl, hnodup, hmem, rfl⟩

/-! ## Readings -/

/-- The elements are read as these extensions, one by one. -/
def ReadAs (vs : List Value) (es : List Extension) : Prop :=
  List.Forall₂ (fun v e => Extension.schema.ofValue v = .ok e) vs es

theorem foldlM_read_eq_ok_iff {vs : List Value} :
    vs.foldlM (fun xs v => do xs.insert (← Extension.schema.ofValue v)) xs = .ok ys ↔
      ∃ es, ReadAs vs es ∧ es.foldlM insert xs = .ok ys := by
  induction vs generalizing xs with
  | nil =>
    constructor
    · intro h
      exact ⟨[], .nil, h⟩
    · rintro ⟨_, ⟨⟩, h⟩
      exact h
  | cons v vs ih =>
    simp only [List.foldlM_cons, except_bind_eq_ok_iff, ih]
    constructor
    · rintro ⟨zs, ⟨e, he, hzs⟩, es, hes, h⟩
      refine ⟨e :: es, .cons he hes, ?_⟩
      rw [List.foldlM_cons, except_bind_eq_ok_iff]
      exact ⟨zs, hzs, h⟩
    · rintro ⟨_, hes, h⟩
      cases hes with
      | @cons _ e _ es he hes =>
        rw [List.foldlM_cons, except_bind_eq_ok_iff] at h
        obtain ⟨zs, hzs, h⟩ := h
        exact ⟨zs, ⟨e, he, hzs⟩, es, hes, h⟩

theorem parse_eq_ok_iff {vs : List Value} : parse vs = .ok xs ↔ ReadAs vs xs.items := by
  unfold parse
  rw [foldlM_read_eq_ok_iff]
  simp only [foldlM_insert_eq_ok_iff]
  constructor
  · rintro ⟨es, hes, h⟩
    rwa [h]
  · intro h
    exact ⟨_, h, rfl⟩

theorem ofValue_eq_ok_iff {v : Value} :
    schema.ofValue v = .ok xs ↔ ∃ vs, v = .sequence vs ∧ ReadAs vs xs.items := by
  simp only [schema, Schema.ofValue_ofSequence_eq_ok_iff, parse_eq_ok_iff]

theorem ofOctets_eq_ok_iff {s : Octets} :
    schema.ofOctets s = .ok xs ↔ ∃ vs, Value.ofBer s = .ok (.sequence vs) ∧ ReadAs vs xs.items := by
  simp only [Schema.ofOctets_eq_ok_iff, ofValue_eq_ok_iff]
  constructor
  · rintro ⟨_, hs, vs, rfl, h⟩
    exact ⟨vs, hs, h⟩
  · rintro ⟨vs, hs, h⟩
    exact ⟨_, hs, vs, rfl, h⟩

theorem ofTagged_eq_ok_iff {isExplicit : Bool} {t : Tagged} :
    ofTagged isExplicit t = .ok xs ↔
      ∃ vs, t.resolve isExplicit UniversalType.sequence.number = .ok (.sequence vs) ∧
        ReadAs vs xs.items := by
  simp only [ofTagged, except_bind_eq_ok_iff, UniversalSchema.takes_sequence.ofTagged_iff,
    parse_eq_ok_iff]

/-! ## Views -/

theorem find?_eq_some_iff : xs.find? id = some e ↔ e ∈ xs.items ∧ e.id = id := by
  unfold find?
  constructor
  · intro h
    exact ⟨List.mem_of_find?_eq_some h, by simpa using List.find?_some h⟩
  · rintro ⟨he, rfl⟩
    cases hf : xs.items.find? (·.id == e.id) with
    | none => simpa using List.find?_eq_none.1 hf e he
    | some f =>
      have hid : f.id = e.id := by simpa using List.find?_some hf
      rw [List.inj_on_of_nodup_map xs.distinct (List.mem_of_find?_eq_some hf) he hid]

/-! ## Blocks in another order -/

theorem sameItems_iff : xs.sameItems ys = true ↔ xs.items.Perm ys.items := by
  simp only [sameItems, length, Bool.and_eq_true, beq_iff_eq, List.all_eq_true,
    find?_eq_some_iff, and_true]
  constructor
  · rintro ⟨hlen, hsub⟩
    have hnodup : xs.items.Nodup := .of_map Extension.id xs.distinct
    exact (List.subperm_of_subset hnodup hsub).perm_of_length_le hlen.ge
  · intro h
    exact ⟨h.length_eq, fun e he => h.subset he⟩

def usageAndConstraints : List Extension :=
  [⟨Identifiers.keyUsage, true, [3, 2, 1, 6]⟩, ⟨Identifiers.basicConstraints, false, [0x30, 0]⟩]

end Certificate.Extensions

end Tlv
