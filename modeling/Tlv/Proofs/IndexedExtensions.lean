import Tlv.Certificate.Identifiers
import Tlv.Certificate.IndexedExtensions
import Tlv.Proofs.EqualObjects
import Tlv.Proofs.Extensions
import Tlv.Proofs.ObjectIdentifier

/-! # Extensions by identifier

The list of identifiers and the map are in step if they have the same identifiers, each once, and
each extension is stored under its own. An addition keeps them in step, so they are in step however
a block of extensions was made, and all that is asked of either container is told by the list of
extensions that were given.
-/

namespace Tlv

namespace Corresponds

variable {ε α β γ : Type} {r : α → β → Prop} {a : α} {b : β} {x : Except ε α} {y : Except ε β}

theorem exists_of_ok (h : Corresponds r x y) (hx : x = .ok a) : ∃ b, y = .ok b ∧ r a b := by
  cases h with
  | ok h =>
    cases hx
    exact ⟨_, rfl, h⟩
  | error => cases hx

theorem exists_of_ok_right (h : Corresponds r x y) (hy : y = .ok b) : ∃ a, x = .ok a ∧ r a b := by
  cases h with
  | ok h =>
    cases hy
    exact ⟨_, rfl, h⟩
  | error => cases hy

theorem eq_error (h : Corresponds r x y) {e : ε} (hx : x = .error e) : y = .error e := by
  cases h with
  | ok => cases hx
  | error =>
    cases hx
    rfl

theorem foldlM {f : α → γ → Except ε α} {g : β → γ → Except ε β}
    (hstep : ∀ a b c, r a b → Corresponds r (f a c) (g b c)) (h : r a b) (cs : List γ) :
    Corresponds r (cs.foldlM f a) (cs.foldlM g b) := by
  induction cs generalizing a b with
  | nil => exact .ok h
  | cons c cs ih =>
    rw [List.foldlM_cons, List.foldlM_cons]
    exact (hstep a b c h).bind fun _ _ => ih

end Corresponds

namespace Certificate.IndexedExtensions

variable {xs ys : IndexedExtensions} {ls : Extensions} {e : Extension} {id : Oid}

/-- The containers have the same identifiers, and each extension is stored under its own. -/
structure InStep (xs : IndexedExtensions) : Prop where
  nodup : xs.ordering.Nodup
  mem_index_iff : ∀ id, id ∈ xs.index ↔ id ∈ xs.ordering
  id_eq : ∀ id e, xs.find? id = some e → e.id = id

/-! ## Additions -/

theorem inStep_empty : empty.InStep where
  nodup := List.nodup_nil
  mem_index_iff _ := iff_of_false Std.HashMap.not_mem_empty List.not_mem_nil
  id_eq _ _ h := by simp [find?, empty] at h

theorem insert_eq_ok_iff :
    xs.insert e = .ok ys ↔
      e.id ∉ xs.index ∧ ys = ⟨xs.ordering ++ [e.id], xs.index.insert e.id e⟩ := by
  simp only [insert, Std.HashMap.contains_iff_mem]
  split
  · rename_i h
    simp [h]
  · rename_i h
    rw [Except.ok.injEq]
    exact ⟨fun hys => ⟨h, hys.symm⟩, fun ⟨_, hys⟩ => hys.symm⟩

theorem insert_of_mem (h : e.id ∈ xs.index) :
    xs.insert e = .error (.repeatedExtension e.id.text) :=
  if_pos (Std.HashMap.contains_iff_mem.2 h)

theorem find?_insert (h : xs.insert e = .ok ys) (id : Oid) :
    ys.find? id = if e.id = id then some e else xs.find? id := by
  obtain ⟨-, rfl⟩ := insert_eq_ok_iff.1 h
  simp only [find?, Std.HashMap.getElem?_insert, beq_iff_eq]

theorem InStep.insert (h : xs.InStep) (hys : xs.insert e = .ok ys) : ys.InStep := by
  have hfind := find?_insert hys
  obtain ⟨hnew, rfl⟩ := insert_eq_ok_iff.1 hys
  refine ⟨?_, ?_, ?_⟩
  · apply List.Nodup.append h.nodup (List.nodup_singleton _)
    rw [List.disjoint_singleton, ← h.mem_index_iff]
    exact hnew
  · intro id
    rw [Std.HashMap.mem_insert, beq_iff_eq, h.mem_index_iff, List.mem_append,
      List.mem_singleton, or_comm, eq_comm]
  · intro id f hf
    rw [hfind] at hf
    split at hf
    · cases hf
      assumption
    · exact h.id_eq id f hf

/-! ## The extensions in order -/

theorem InStep.find?_of_mem (h : xs.InStep) (hid : id ∈ xs.ordering) :
    ∃ e, xs.find? id = some e ∧ e.id = id := by
  obtain ⟨e, he⟩ := Option.isSome_iff_exists.1
    (Std.HashMap.mem_iff_isSome_getElem?.1 ((h.mem_index_iff id).2 hid))
  exact ⟨e, he, h.id_eq id e he⟩

theorem InStep.map_id_items (h : xs.InStep) : xs.items.map Extension.id = xs.ordering := by
  have hid : ∀ id ∈ xs.ordering, (xs.find? id).map Extension.id = some id := by
    intro id hid
    obtain ⟨e, he, rfl⟩ := h.find?_of_mem hid
    rw [he, Option.map_some]
  rw [items, List.map_filterMap]
  exact (List.filterMap_congr hid).trans List.filterMap_some

theorem InStep.find?_eq_some_iff (h : xs.InStep) :
    xs.find? id = some e ↔ e ∈ xs.items ∧ e.id = id := by
  rw [items, List.mem_filterMap]
  constructor
  · intro he
    have hid : id ∈ xs.ordering := (h.mem_index_iff id).1
      (Std.HashMap.mem_iff_isSome_getElem?.2 (Option.isSome_iff_exists.2 ⟨e, he⟩))
    exact ⟨⟨id, hid, he⟩, h.id_eq id e he⟩
  · rintro ⟨⟨id', -, he⟩, rfl⟩
    rwa [h.id_eq id' e he]

theorem InStep.mem_items_iff (h : xs.InStep) : e ∈ xs.items ↔ xs.find? e.id = some e := by
  rw [h.find?_eq_some_iff]
  exact (and_iff_left rfl).symm

theorem InStep.nodup_items (h : xs.InStep) : xs.items.Nodup :=
  .of_map Extension.id (h.map_id_items ▸ h.nodup)

theorem InStep.items_insert (h : xs.InStep) (hys : xs.insert e = .ok ys) :
    ys.items = xs.items ++ [e] := by
  have hfind := find?_insert hys
  obtain ⟨hnew, rfl⟩ := insert_eq_ok_iff.1 hys
  have hold : ∀ id ∈ xs.ordering, IndexedExtensions.find?
      ⟨xs.ordering ++ [e.id], xs.index.insert e.id e⟩ id = xs.find? id := by
    intro id hid
    rw [hfind, if_neg]
    rintro rfl
    exact hnew ((h.mem_index_iff _).2 hid)
  rw [items, List.filterMap_append, List.filterMap_congr hold, List.filterMap_cons, hfind,
    if_pos rfl]
  rfl

theorem equivalent_iff_perm (hx : xs.InStep) (hy : ys.InStep) :
    xs.equivalent ys = true ↔ xs.items.Perm ys.items := by
  rw [equivalent, Std.HashMap.beq_iff_equiv,
    List.perm_ext_iff_of_nodup hx.nodup_items hy.nodup_items]
  constructor
  · intro h e
    rw [hx.mem_items_iff, hy.mem_items_iff, find?, find?, h.getElem?_eq]
  · intro h
    apply Std.HashMap.Equiv.of_forall_getElem?_eq
    intro id
    ext e
    change xs.find? id = some e ↔ ys.find? id = some e
    rw [hx.find?_eq_some_iff, hy.find?_eq_some_iff, h]

/-! ## The list of extensions -/

/-- The containers show what the list shows. -/
structure Agrees (xs : IndexedExtensions) (ls : Extensions) : Prop where
  inStep : xs.InStep
  ids_eq : xs.ids = ls.ids
  items_eq : xs.items = ls.items
  length_eq : xs.length = ls.length
  find?_eq : ∀ id, xs.find? id = ls.find? id
  criticalIds_eq : xs.criticalIds = ls.criticalIds
  nonCriticalIds_eq : xs.nonCriticalIds = ls.nonCriticalIds
  hasCritical_eq : xs.hasCritical = ls.hasCritical
  toValue_eq : xs.toValue = ls.toValue

theorem InStep.agrees (h : xs.InStep) (hl : xs.items = ls.items) : xs.Agrees ls where
  inStep := h
  ids_eq := by rw [ids, Extensions.ids, ← hl, h.map_id_items]
  items_eq := hl
  length_eq := by rw [length, Extensions.length, ← hl, ← h.map_id_items, List.length_map]
  find?_eq id := by
    ext e
    rw [h.find?_eq_some_iff, Extensions.find?_eq_some_iff, hl]
  criticalIds_eq := by simp [criticalIds, idsWhere, Extensions.criticalIds, hl]
  nonCriticalIds_eq := by simp [nonCriticalIds, idsWhere, Extensions.nonCriticalIds, hl]
  hasCritical_eq := by rw [hasCritical, Extensions.hasCritical, hl]
  toValue_eq := by rw [toValue, Extensions.toValue, hl]

theorem Agrees.insert (h : xs.Agrees ls) (e : Extension) :
    Corresponds Agrees (xs.insert e) (ls.insert e) := by
  have hmem : e.id ∈ xs.index ↔ e.id ∈ ls.ids := by
    rw [h.inStep.mem_index_iff, ← h.ids_eq, ids]
  by_cases he : e.id ∈ xs.index
  · rw [insert_of_mem he, Extensions.insert_eq_error_iff.2 ⟨hmem.1 he, rfl⟩]
    exact .error _
  · have hys := insert_eq_ok_iff.2 ⟨he, rfl⟩
    obtain ⟨ms, hms⟩ := Extensions.exists_insert_of_not_mem (mt hmem.2 he)
    rw [hys, hms]
    refine .ok ((h.inStep.insert hys).agrees ?_)
    rw [h.inStep.items_insert hys, (Extensions.insert_eq_ok_iff.1 hms).2, h.items_eq]

theorem agrees_empty : empty.Agrees .empty :=
  inStep_empty.agrees rfl

theorem corresponds_ofList (es : List Extension) :
    Corresponds Agrees (ofList es) (Extensions.ofList es) :=
  Corresponds.foldlM (fun _ _ e h => h.insert e) agrees_empty es

theorem corresponds_parse (vs : List Value) :
    Corresponds Agrees (parse vs) (Extensions.parse vs) := by
  refine Corresponds.foldlM (fun xs ls v h => ?_) agrees_empty vs
  exact (Corresponds.of_eq (fun _ => rfl) rfl).bind fun e _ he => he ▸ h.insert e

theorem corresponds_ofTagged (isExplicit : Bool) (t : Tagged) :
    Corresponds Agrees (ofTagged isExplicit t) (Extensions.ofTagged isExplicit t) :=
  (Corresponds.of_eq (fun _ => rfl) rfl).bind fun vs _ hvs => hvs ▸ corresponds_parse vs

theorem corresponds_ofValue (v : Value) :
    Corresponds Agrees (schema.ofValue v) (Extensions.schema.ofValue v) := by
  cases v with
  | sequence vs => exact corresponds_parse vs
  | _ => exact .error _

theorem corresponds_ofOctets (s : Octets) :
    Corresponds Agrees (schema.ofOctets s) (Extensions.schema.ofOctets s) := by
  rw [Schema.ofOctets, Schema.ofOctets]
  cases Value.ofBer s with
  | error e => exact .error _
  | ok v => exact corresponds_ofValue v

theorem Agrees.equivalent_eq {ms : Extensions} (h : xs.Agrees ls) (h' : ys.Agrees ms) :
    xs.equivalent ys = ls.sameItems ms := by
  rw [Bool.eq_iff_iff, equivalent_iff_perm h.inStep h'.inStep, Extensions.sameItems_iff,
    h.items_eq, h'.items_eq]

/-! ## What is shown of the extensions that were given -/

/-- What the containers say of the extensions that were given. -/
structure Represents (xs : IndexedExtensions) (es : List Extension) : Prop where
  inStep : xs.InStep
  ids_eq : xs.ids = es.map Extension.id
  nodup_texts : (xs.ids.map Oid.text).Nodup
  items_eq : xs.items = es
  length_eq : xs.length = es.length
  size_eq : xs.index.size = es.length
  find?_eq_some_iff : ∀ id e, xs.find? id = some e ↔ e ∈ es ∧ e.id = id
  existsUnique_of_mem_ids : ∀ id ∈ xs.ids, ∃! e, e ∈ es ∧ e.id = id
  mem_criticalIds_iff : ∀ e ∈ es, e.id ∈ xs.criticalIds ↔ e.critical = true
  criticalIds_sublist : xs.criticalIds.Sublist xs.ids
  nonCriticalIds_sublist : xs.nonCriticalIds.Sublist xs.ids
  disjoint : xs.criticalIds.Disjoint xs.nonCriticalIds
  perm : (xs.criticalIds ++ xs.nonCriticalIds).Perm xs.ids
  hasCritical_iff : xs.hasCritical = true ↔ xs.criticalIds ≠ []

theorem InStep.idsWhere_sublist (h : xs.InStep) (critical : Bool) :
    (xs.idsWhere critical).Sublist xs.ids := by
  rw [ids, ← h.map_id_items]
  exact List.filter_sublist.map _

theorem InStep.criticalIds_append_perm (h : xs.InStep) :
    (xs.criticalIds ++ xs.nonCriticalIds).Perm xs.ids := by
  have hnot : (fun e : Extension => e.critical == false) = fun e => !(e.critical == true) := by
    funext e
    cases e.critical <;> rfl
  rw [criticalIds, nonCriticalIds, idsWhere, idsWhere, hnot, ← List.map_append, ids,
    ← h.map_id_items]
  exact (List.filter_append_perm _ _).map _

theorem InStep.size_eq (h : xs.InStep) : xs.index.size = xs.ordering.length := by
  have hkeys : xs.index.keys.Perm xs.ordering := by
    rw [List.perm_ext_iff_of_nodup Std.HashMap.nodup_keys h.nodup]
    intro id
    rw [Std.HashMap.mem_keys, h.mem_index_iff]
  rw [← Std.HashMap.length_keys, hkeys.length_eq]

theorem InStep.represents (h : xs.InStep) : xs.Represents xs.items where
  inStep := h
  ids_eq := h.map_id_items.symm
  nodup_texts := h.nodup.map Oid.text_injective
  items_eq := rfl
  length_eq := by rw [length, ← h.map_id_items, List.length_map]
  size_eq := by rw [h.size_eq, ← h.map_id_items, List.length_map]
  find?_eq_some_iff _ _ := h.find?_eq_some_iff
  existsUnique_of_mem_ids := by
    intro id hid
    obtain ⟨e, he, -⟩ := h.find?_of_mem hid
    refine ⟨e, h.find?_eq_some_iff.1 he, fun f hf => ?_⟩
    exact Option.some.inj ((h.find?_eq_some_iff.2 hf).symm.trans he)
  mem_criticalIds_iff := by
    intro e he
    constructor
    · intro hid
      obtain ⟨f, hf, hid⟩ := List.mem_map.1 hid
      obtain ⟨hf, hcritical⟩ := List.mem_filter.1 hf
      have hfe : f = e := by
        have hfind := h.mem_items_iff.1 hf
        rw [hid, h.mem_items_iff.1 he] at hfind
        exact (Option.some.inj hfind).symm
      exact hfe ▸ beq_iff_eq.1 hcritical
    · intro hcritical
      exact List.mem_map_of_mem (List.mem_filter.2 ⟨he, beq_iff_eq.2 hcritical⟩)
  criticalIds_sublist := h.idsWhere_sublist true
  nonCriticalIds_sublist := h.idsWhere_sublist false
  disjoint :=
    List.disjoint_of_nodup_append (h.criticalIds_append_perm.nodup_iff.2 h.nodup)
  perm := h.criticalIds_append_perm
  hasCritical_iff := by simp [hasCritical, criticalIds, idsWhere]

theorem Agrees.represents (h : xs.Agrees ls) : xs.Represents ls.items :=
  h.items_eq ▸ h.inStep.represents

/-! ## However they are put together -/

open Extensions (ReadAs)

variable {es fs : List Extension}

theorem represents_of_ofList (h : ofList es = .ok xs) : xs.Represents es := by
  obtain ⟨ls, hls, hagrees⟩ := (corresponds_ofList es).exists_of_ok h
  rw [← Extensions.ofList_eq_ok_iff.1 hls]
  exact hagrees.represents

theorem exists_ofList_iff : (∃ xs, ofList es = .ok xs) ↔ (es.map Extension.id).Nodup := by
  rw [← Extensions.exists_ofList_iff]
  constructor
  · rintro ⟨xs, h⟩
    obtain ⟨ls, hls, -⟩ := (corresponds_ofList es).exists_of_ok h
    exact ⟨ls, hls⟩
  · rintro ⟨ls, h⟩
    obtain ⟨xs, hxs, -⟩ := (corresponds_ofList es).exists_of_ok_right h
    exact ⟨xs, hxs⟩

theorem exists_ofList_of_perm (hp : es.Perm fs) (h : ofList es = .ok xs) :
    ∃ ys, ofList fs = .ok ys ∧ xs.equivalent ys = true := by
  have hnodup := exists_ofList_iff.1 ⟨xs, h⟩
  obtain ⟨ys, hys⟩ := exists_ofList_iff.2 ((hp.map Extension.id).nodup_iff.1 hnodup)
  have hx := represents_of_ofList h
  have hy := represents_of_ofList hys
  refine ⟨ys, hys, (equivalent_iff_perm hx.inStep hy.inStep).2 ?_⟩
  rwa [hx.items_eq, hy.items_eq]

/-- However extensions are put together, from a list, from a tagged object, from a value or from
octets, the two containers are in step. They list the extensions in the order in which they were
given, and each is found under its own identifier. A list is taken unless an identifier occurs
twice, and its order makes no difference to what is held. A list without repeated identifiers in
place of the containers shows all that they show. -/
theorem represents_given :
    (∀ es xs, ofList es = .ok xs → xs.Represents es) ∧
    (∀ isExplicit t xs, ofTagged isExplicit t = .ok xs →
      ∃ vs es, t.resolve isExplicit UniversalType.sequence.number = .ok (.sequence vs) ∧
        ReadAs vs es ∧ xs.Represents es) ∧
    (∀ v xs, schema.ofForm (.value v) = .ok xs →
      ∃ vs es, v = .sequence vs ∧ ReadAs vs es ∧ xs.Represents es) ∧
    (∀ s xs, schema.ofForm (.octets s) = .ok xs →
      ∃ vs es, Value.ofBer s = .ok (.sequence vs) ∧ ReadAs vs es ∧ xs.Represents es) ∧
    (∀ (xs ys : IndexedExtensions) e, xs.InStep → xs.insert e = .ok ys →
      ys.InStep ∧ ys.items = xs.items ++ [e] ∧
        ∀ id, ys.find? id = if e.id = id then some e else xs.find? id) ∧
    (∀ es, (∃ xs, ofList es = .ok xs) ↔ (es.map Extension.id).Nodup) ∧
    (∀ es err, ofList es = .error err → err.kind = .duplicateField ∧
      ∃ before e after, es = before ++ e :: after ∧ (before.map Extension.id).Nodup ∧
        e.id ∈ before.map Extension.id ∧ err = .repeatedExtension e.id.text) ∧
    (∀ es fs xs, es.Perm fs → ofList es = .ok xs →
      ∃ ys, ofList fs = .ok ys ∧ xs.equivalent ys = true) ∧
    (∀ xs ys : IndexedExtensions, xs.InStep → ys.InStep →
      (xs.equivalent ys = true ↔ xs.items.Perm ys.items)) ∧
    (∀ (xs ys : IndexedExtensions) (ls ms : Extensions), xs.Agrees ls → ys.Agrees ms →
      xs.equivalent ys = ls.sameItems ms) ∧
    (∀ es, Corresponds Agrees (ofList es) (Extensions.ofList es)) ∧
    (∀ isExplicit t,
      Corresponds Agrees (ofTagged isExplicit t) (Extensions.ofTagged isExplicit t)) ∧
    (∀ v, Corresponds Agrees (schema.ofForm (.value v)) (Extensions.schema.ofForm (.value v))) ∧
    ∀ s, Corresponds Agrees (schema.ofForm (.octets s)) (Extensions.schema.ofForm (.octets s)) := by
  refine ⟨fun es xs => represents_of_ofList, ?_, ?_, ?_, ?_, fun es => exists_ofList_iff, ?_,
    fun es fs xs => exists_ofList_of_perm, fun xs ys => equivalent_iff_perm,
    fun xs ys ls ms => Agrees.equivalent_eq, corresponds_ofList, corresponds_ofTagged,
    corresponds_ofValue, corresponds_ofOctets⟩
  · intro isExplicit t xs h
    obtain ⟨ls, hls, hagrees⟩ := (corresponds_ofTagged isExplicit t).exists_of_ok h
    obtain ⟨vs, ht, hvs⟩ := Extensions.ofTagged_eq_ok_iff.1 hls
    exact ⟨vs, ls.items, ht, hvs, hagrees.represents⟩
  · intro v xs h
    obtain ⟨ls, hls, hagrees⟩ := (corresponds_ofValue v).exists_of_ok h
    obtain ⟨vs, hv, hvs⟩ := Extensions.ofValue_eq_ok_iff.1 hls
    exact ⟨vs, ls.items, hv, hvs, hagrees.represents⟩
  · intro s xs h
    obtain ⟨ls, hls, hagrees⟩ := (corresponds_ofOctets s).exists_of_ok h
    obtain ⟨vs, hs, hvs⟩ := Extensions.ofOctets_eq_ok_iff.1 hls
    exact ⟨vs, ls.items, hs, hvs, hagrees.represents⟩
  · intro xs ys e hx h
    exact ⟨hx.insert h, hx.items_insert h, find?_insert h⟩
  · intro es err h
    obtain ⟨before, e, after, hes, hnodup, hmem, rfl⟩ :=
      Extensions.exists_of_foldlM_insert_eq_error ((corresponds_ofList es).eq_error h)
    exact ⟨rfl, before, e, after, hes, hnodup, hmem, rfl⟩

theorem represents_usageAndConstraints :
    (∃ xs, ofList Extensions.usageAndConstraints = .ok xs ∧
      xs.Represents Extensions.usageAndConstraints ∧
      ∃ ys, ofList Extensions.usageAndConstraints.reverse = .ok ys ∧ xs.equivalent ys = true) ∧
    (∃ xs, schema.ofForm
        (.octets (Value.sequence (Extensions.usageAndConstraints.map Extension.toValue)).der) =
          .ok xs ∧
      xs.Represents Extensions.usageAndConstraints) ∧
    ∃ err, ofList (Extensions.usageAndConstraints ++ Extensions.usageAndConstraints.reverse) =
      .error err ∧ err.kind = .duplicateField := by
  obtain ⟨hlist, -, -, hoctets, -, hiff, herror, hperm, -, -, -, -, -, hagrees⟩ := represents_given
  obtain ⟨xs, hxs⟩ := (hiff Extensions.usageAndConstraints).2 (by decide)
  obtain ⟨ys, hys, hsame⟩ := hperm _ _ _ (List.reverse_perm _).symm hxs
  have hread : Extensions.schema.ofForm
      (.octets (Value.sequence (Extensions.usageAndConstraints.map Extension.toValue)).der) =
        .ok ⟨Extensions.usageAndConstraints, by decide⟩ := by with_unfolding_all rfl
  obtain ⟨zs, hzs, hz⟩ := (hagrees _).exists_of_ok_right hread
  obtain ⟨vs, es, -, -, hes⟩ := hoctets _ _ hzs
  obtain rfl : es = Extensions.usageAndConstraints := hes.items_eq.symm.trans hz.items_eq
  refine ⟨⟨xs, hxs, hlist _ _ hxs, ys, hys, hsame⟩, ⟨zs, hzs, hes⟩, ?_⟩
  cases h : ofList (Extensions.usageAndConstraints ++ Extensions.usageAndConstraints.reverse) with
  | error err => exact ⟨err, rfl, (herror _ _ h).1⟩
  | ok ws => exact absurd ((hiff _).1 ⟨ws, h⟩) (by decide)

end Certificate.IndexedExtensions

end Tlv
