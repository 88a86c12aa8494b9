import Mathlib.Data.List.Flatten
import Tlv.Octets

/-! # The order of octets

The lexicographic order is total, so that sorted lists of octets are determined by what they hold.
Of all the ways to put octets one after the other, the sorted one comes first, provided that none
begins like another.
-/

namespace Tlv.Octets

variable {a b : UInt8} {s t u v : Octets}

theorem cons_le_cons_iff : le (a :: s) (b :: t) = true ↔ a < b ∨ a = b ∧ le s t = true := by
  simp [le]

theorem le_refl (s : Octets) : le s s = true := by
  induction s with
  | nil => rfl
  | cons a s ih => exact cons_le_cons_iff.2 (.inr ⟨rfl, ih⟩)

theorem le_total (s t : Octets) : le s t = true ∨ le t s = true := by
  induction s generalizing t with
  | nil => exact .inl rfl
  | cons a s ih =>
    cases t with
    | nil => exact .inr rfl
    | cons b t =>
      simp only [cons_le_cons_iff]
      by_cases hab : a = b
      · rcases ih t with h | h
        · exact .inl (.inr ⟨hab, h⟩)
        · exact .inr (.inr ⟨hab.symm, h⟩)
      · rcases UInt8.lt_or_lt_of_ne hab with h | h
        · exact .inl (.inl h)
        · exact .inr (.inl h)

theorem le_trans (h : le s t = true) (h' : le t u = true) : le s u = true := by
  induction s generalizing t u with
  | nil => rfl
  | cons a s ih =>
    cases t with
    | nil => cases h
    | cons b t =>
      cases u with
      | nil => cases h'
      | cons c u =>
        rw [cons_le_cons_iff] at h h' ⊢
        rcases h with h | ⟨rfl, h⟩
        · rcases h' with h' | ⟨rfl, -⟩
          · exact .inl (UInt8.lt_trans h h')
          · exact .inl h
        · rcases h' with h' | ⟨rfl, h'⟩
          · exact .inl h'
          · exact .inr ⟨rfl, ih h h'⟩

theorem le_antisymm (h : le s t = true) (h' : le t s = true) : s = t := by
  induction s generalizing t with
  | nil =>
    cases t with
    | nil => rfl
    | cons b t => cases h'
  | cons a s ih =>
    cases t with
    | nil => cases h
    | cons b t =>
      rw [cons_le_cons_iff] at h h'
      rcases h with h | ⟨rfl, h⟩
      · rcases h' with h' | ⟨rfl, -⟩
        · exact absurd h' (UInt8.lt_asymm h)
        · exact absurd h (UInt8.lt_irrefl _)
      · rcases h' with h' | ⟨-, h'⟩
        · exact absurd h' (UInt8.lt_irrefl _)
        · rw [ih h h']

theorem le_or_le (s t : Octets) : (le s t || le t s) = true := by
  rw [Bool.or_eq_true]
  exact le_total s t

theorem pairwise_mergeSort (xs : List Octets) :
    (xs.mergeSort le).Pairwise fun s t => le s t = true :=
  @List.pairwise_mergeSort _ le (fun _ _ _ => le_trans) le_or_le xs

theorem mergeSort_eq_of_perm {xs ys : List Octets} (h : xs.Perm ys) :
    xs.mergeSort le = ys.mergeSort le :=
  List.Perm.eq_of_pairwise (fun _ _ _ _ => le_antisymm) (pairwise_mergeSort xs)
    (pairwise_mergeSort ys)
    ((List.mergeSort_perm xs le).trans (h.trans (List.mergeSort_perm ys le).symm))

/-! ## Octets of equal length -/

/-- As many octets, and not after in the order. -/
def Below (s t : Octets) : Prop := s.length = t.length ∧ le s t = true

theorem Below.refl (s : Octets) : Below s s := ⟨rfl, le_refl s⟩

theorem Below.trans (h : Below s t) (h' : Below t u) : Below s u :=
  ⟨h.1.trans h'.1, le_trans h.2 h'.2⟩

theorem Below.antisymm (h : Below s t) (h' : Below t s) : s = t := le_antisymm h.2 h'.2

theorem Below.append (h : Below s t) (h' : Below u v) : Below (s ++ u) (t ++ v) := by
  obtain ⟨hl, h⟩ := h
  refine ⟨by simp only [List.length_append, hl, h'.1], ?_⟩
  induction s generalizing t with
  | nil =>
    obtain rfl := List.eq_nil_of_length_eq_zero hl.symm
    exact h'.2
  | cons a s ih =>
    cases t with
    | nil => cases hl
    | cons b t =>
      simp only [List.cons_append, cons_le_cons_iff]
      rcases cons_le_cons_iff.1 h with hab | ⟨rfl, hst⟩
      · exact .inl hab
      · exact .inr ⟨rfl, ih (Nat.succ.inj hl) hst⟩

/-- Where neither list begins like the other, what follows them does not count. -/
theorem le_append (h : le s t = true) (hp : ¬ s <+: t) (u v : Octets) :
    le (s ++ u) (t ++ v) = true := by
  induction s generalizing t with
  | nil => exact absurd List.nil_prefix hp
  | cons a s ih =>
    cases t with
    | nil => cases h
    | cons b t =>
      simp only [List.cons_append, cons_le_cons_iff]
      rcases cons_le_cons_iff.1 h with hab | ⟨rfl, hst⟩
      · exact .inl hab
      · refine .inr ⟨rfl, ih hst ?_⟩
        rintro ⟨u, rfl⟩
        exact hp ⟨u, rfl⟩

theorem Below.swap (h : le s t = true) (hp : s <+: t → s = t) : Below (s ++ t) (t ++ s) := by
  by_cases hst : s <+: t
  · rw [hp hst]
    exact .refl _
  · constructor
    · simp only [List.length_append, Nat.add_comm]
    · exact le_append h hst t s

theorem Below.move {xs : List Octets} (h : ∀ s ∈ xs, le s t = true ∧ (s <+: t → s = t)) :
    Below (xs.flatten ++ t) (t ++ xs.flatten) := by
  induction xs with
  | nil =>
    rw [List.flatten_nil, List.append_nil]
    exact .refl t
  | cons s xs ih =>
    rw [List.forall_mem_cons] at h
    rw [List.flatten_cons, List.append_assoc, ← List.append_assoc t]
    apply ((Below.refl s).append (ih h.2)).trans
    rw [← List.append_assoc]
    exact (Below.swap h.1.1 h.1.2).append (.refl _)

/-- The sorted order gives the least octets. -/
theorem below_flatten_mergeSort {xs : List Octets} (hp : ∀ s ∈ xs, ∀ t ∈ xs, s <+: t → s = t) :
    Below (xs.mergeSort le).flatten xs.flatten := by
  induction xs with
  | nil =>
    rw [List.mergeSort_nil]
    exact .refl []
  | cons a xs ih =>
    obtain ⟨l, r, hs, ht, hl⟩ :=
      @List.mergeSort_cons _ le (fun _ _ _ => le_trans) le_or_le a xs
    have hmem {s : Octets} (h : s ∈ l) : s ∈ xs :=
      (List.mergeSort_perm xs le).mem_iff.1 (ht ▸ List.mem_append_left r h)
    have hmove : Below (l.flatten ++ a) (a ++ l.flatten) := by
      refine Below.move fun s h => ⟨?_, hp s (List.mem_cons_of_mem a (hmem h)) a List.mem_cons_self⟩
      exact (le_total s a).resolve_right (by simpa using hl s h)
    have htail : Below (xs.mergeSort le).flatten xs.flatten :=
      ih fun s h t h' => hp s (List.mem_cons_of_mem a h) t (List.mem_cons_of_mem a h')
    rw [hs, List.flatten_append, List.flatten_cons, List.flatten_cons, ← List.append_assoc]
    apply (hmove.append (.refl r.flatten)).trans
    rw [List.append_assoc, ← List.flatten_append, ← ht]
    exact (Below.refl a).append htail

section

variable {α : Type} {f g : α → Octets} {xs : List α}

theorem Below.flatMap (h : ∀ x ∈ xs, Below (f x) (g x)) : Below (xs.flatMap f) (xs.flatMap g) := by
  induction xs with
  | nil => exact .refl []
  | cons x xs ih =>
    rw [List.forall_mem_cons] at h
    rw [List.flatMap_cons, List.flatMap_cons]
    exact h.1.append (ih h.2)

theorem eq_of_flatMap_eq (hl : ∀ x ∈ xs, (f x).length = (g x).length)
    (h : xs.flatMap f = xs.flatMap g) : ∀ x ∈ xs, f x = g x := by
  induction xs with
  | nil => exact List.forall_mem_nil _
  | cons x xs ih =>
    rw [List.forall_mem_cons] at hl
    obtain ⟨hx, hxs⟩ := List.append_inj h hl.1
    exact List.forall_mem_cons.2 ⟨hx, ih hl.2 hxs⟩

theorem below_flatMap {P : α → Prop} (h : ∀ x ∈ xs, Below (f x) (g x) ∧ (f x = g x → P x)) :
    Below (xs.flatMap f) (xs.flatMap g) ∧ (xs.flatMap f = xs.flatMap g → ∀ x ∈ xs, P x) := by
  constructor
  · exact .flatMap fun x hx => (h x hx).1
  · intro he x hx
    exact (h x hx).2 (eq_of_flatMap_eq (fun x hx => (h x hx).1.1) he x hx)

/-- Sorting keeps lists below each other. They become equal only if they were before. -/
theorem below_sorted (hp : ∀ x ∈ xs, ∀ y ∈ xs, f x <+: f y → f x = f y)
    (h : ∀ x ∈ xs, Below (f x) (g x)) :
    Below ((xs.map f).mergeSort le).flatten ((xs.map g).mergeSort le).flatten ∧
      (((xs.map f).mergeSort le).flatten = ((xs.map g).mergeSort le).flatten →
        ∀ x ∈ xs, f x = g x) := by
  let ys := xs.mergeSort fun x y => le (g x) (g y)
  have hperm : ys.Perm xs := List.mergeSort_perm _ _
  have hg : ((xs.map g).mergeSort le).flatten = ys.flatMap g := by
    have hmap : ys.map g = (xs.map g).mergeSort le := List.map_mergeSort fun _ _ _ _ => rfl
    rw [List.flatMap_def, hmap]
  have hf : Below ((xs.map f).mergeSort le).flatten (ys.flatMap f) := by
    rw [mergeSort_eq_of_perm (hperm.map f).symm, List.flatMap_def]
    apply below_flatten_mergeSort
    simp only [List.forall_mem_map]
    intro x hx y hy
    exact hp x (hperm.mem_iff.1 hx) y (hperm.mem_iff.1 hy)
  have hfg : Below (ys.flatMap f) (ys.flatMap g) :=
    .flatMap fun y hy => h y (hperm.mem_iff.1 hy)
  rw [hg]
  constructor
  · exact hf.trans hfg
  · intro he x hx
    have hl : ∀ y ∈ ys, (f y).length = (g y).length := fun y hy => (h y (hperm.mem_iff.1 hy)).1
    exact eq_of_flatMap_eq hl (hfg.antisymm (he ▸ hf)) x (hperm.mem_iff.2 hx)

end

end Tlv.Octets
