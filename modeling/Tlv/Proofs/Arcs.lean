import Tlv.Proofs.Contents
import Tlv.Proofs.ObjectIdentifier

/-! # Paths of object identifiers

Numbers are read from contents octets as they were written, and contents without fault hold no
number beyond the bound. So the identifiers are the paths that `IsPath` describes, and a path comes
back from octets and from dotted text as it was. The octets of one identifier begin with those of
another exactly if its path goes on from the end of the other path.
-/

namespace Tlv

theorem mapM_eq_pure {m : Type → Type} [Monad m] [LawfulMonad m] {α β : Type} {f : α → m β}
    {g : α → β} {l : List α} (h : ∀ a ∈ l, f a = pure (g a)) : l.mapM f = pure (l.map g) := by
  induction l with
  | nil => simp
  | cons a l ih =>
    rw [List.forall_mem_cons] at h
    simp [h.1, ih h.2]

namespace Decimal

theorem foldlM_push {cs : List Char} (h : ∀ c ∈ cs, c.isDigit = true) (n : Nat) :
    cs.foldlM push n = some (Nat.ofDigitChars 10 cs n) := by
  induction cs generalizing n with
  | nil => rfl
  | cons c cs ih =>
    rw [List.forall_mem_cons] at h
    rw [List.foldlM_cons, push, if_pos h.1, Option.bind_eq_bind, Option.bind_some, ih h.2,
      Nat.mul_comm]
    rfl

theorem read?_write {bound n : Nat} (h : n < bound) : read? bound (write n) = some n := by
  have hdigits : ∀ c ∈ write n, c.isDigit = true :=
    fun c hc => Nat.isDigit_of_mem_toDigits (by decide) (by decide) hc
  have hread : (write n).foldlM push 0 = some n := by
    rw [foldlM_push hdigits, write, Nat.ofDigitChars_ten_toDigits]
  obtain ⟨c, cs, hcs⟩ : ∃ c cs, write n = c :: cs :=
    List.exists_cons_of_ne_nil Nat.toDigits_ne_nil
  rw [hcs] at hdigits hread ⊢
  have hplus : c ≠ '+' := by
    rintro rfl
    exact absurd (hdigits '+' List.mem_cons_self) (by decide)
  rw [read?, if_neg (by simpa using hplus), digits?, hread]
  · simp [h]
  · simp

end Decimal

namespace Oid

open Base128 (bits continued continues)

variable {acc groups n : Nat} {arcs ns : List Nat} {s : Octets} {id : Oid}

/-! ## Numbers -/

theorem numbersFrom_high {b : UInt8} (hb : continues b = true) :
    numbersFrom acc (b :: s) = numbersFrom (acc * 128 + bits b) s := by
  rw [numbersFrom, if_pos hb]

theorem numbersFrom_low {b : UInt8} (hb : continues b = false) :
    numbersFrom acc (b :: s) = (acc * 128 + bits b) :: numbersFrom 0 s := by
  rw [numbersFrom, if_neg (by simp [hb])]

theorem numbersFrom_continued (n : Nat) (t : Octets) :
    numbersFrom 0 (continued n ++ t) = numbersFrom n t := by
  induction n using Nat.strongRecOn generalizing t with
  | _ n ih =>
    rcases Nat.eq_zero_or_pos n with rfl | hn
    · simp [Base128.continued_zero]
    · have hbits : n / 128 * 128 + bits (UInt8.ofNat (n % 128 + 128)) = n := by
        simp [bits]
        omega
      rw [Base128.continued_of_pos hn, List.append_assoc, ih _ (Nat.div_lt_self hn (by decide)),
        List.singleton_append, numbersFrom_high (Base128.continues_high n), hbits]

theorem numbersFrom_octets (n : Nat) (t : Octets) :
    numbersFrom 0 (Base128.octets n ++ t) = n :: numbersFrom 0 t := by
  have hbits : n / 128 * 128 + bits (UInt8.ofNat (n % 128)) = n := by
    simp [bits]
    omega
  rw [Base128.octets, List.append_assoc, numbersFrom_continued, List.singleton_append,
    numbersFrom_low (Base128.continues_low n), hbits]

theorem numbers_flatMap_append (ns : List Nat) (t : Octets) :
    numbers (ns.flatMap Base128.octets ++ t) = ns ++ numbers t := by
  induction ns with
  | nil => rfl
  | cons n ns ih =>
    rw [List.flatMap_cons, List.append_assoc, numbers, numbersFrom_octets, ← numbers, ih,
      List.cons_append]

theorem numbers_flatMap (ns : List Nat) : numbers (ns.flatMap Base128.octets) = ns := by
  simpa [numbers, numbersFrom] using numbers_flatMap_append ns []

theorem numbers_append (id : Oid) (t : Octets) :
    numbers (id.octets ++ t) = numbers id.octets ++ numbers t := by
  conv => lhs; rw [← id.flatMap_numbers]
  exact numbers_flatMap_append _ _

theorem pushed_lt (h : acc < 128 ^ groups) (b : UInt8) :
    acc * 128 + bits b < 128 ^ (groups + 1) := by
  have : bits b < 128 := Nat.mod_lt _ (by decide)
  rw [pow_succ]
  omega

theorem numbersFrom_lt (hf : faultFrom groups s = none) (hacc : acc < 128 ^ groups) :
    ∀ n ∈ numbersFrom acc s, n < arcBound := by
  induction s generalizing groups acc with
  | nil => simp [numbersFrom]
  | cons b s ih =>
    obtain ⟨-, hgroups, hf⟩ := faultFrom_cons_eq_none_iff.1 hf
    have hnext := pushed_lt hacc b
    cases hb : continues b with
    | true =>
      rw [hb, if_pos rfl] at hf
      rw [numbersFrom_high hb]
      exact ih hf hnext
    | false =>
      rw [hb, if_neg Bool.false_ne_true] at hf
      rw [numbersFrom_low hb, List.forall_mem_cons]
      have hpow : 128 ^ (groups + 1) ≤ 128 ^ 9 := Nat.pow_le_pow_right (by decide) (by omega)
      exact ⟨Nat.lt_of_lt_of_le hnext hpow, ih hf (by simp)⟩

theorem numbers_lt (id : Oid) : ∀ n ∈ numbers id.octets, n < arcBound :=
  numbersFrom_lt id.faultFrom_eq_none (by simp)

/-! ## Arcs -/

/-- The paths of identifiers. Their first two arcs have to fit one number. -/
inductive IsPath : List Nat → Prop where
  | intro {first second : Nat} {rest : List Nat} (hfirst : first ≤ 2)
      (hsecond : first ≤ 1 → second < 40) (hhead : 40 * first + second ≤ 2 ^ 63 - 1)
      (hrest : ∀ a ∈ rest, a ≤ 2 ^ 63 - 1) : IsPath (first :: second :: rest)

theorem arcs_eq (h : numbers id.octets = n :: ns) :
    id.arcs = min (n / 40) 2 :: (n - min (n / 40) 2 * 40) :: ns := by
  rw [arcs, h]

theorem isPath_arcs (id : Oid) : IsPath id.arcs := by
  obtain ⟨n, ns, h⟩ := id.exists_numbers_eq
  have hlt := id.numbers_lt
  rw [h, List.forall_mem_cons] at hlt
  obtain ⟨hn, hns⟩ := hlt
  rw [arcs_eq h]
  unfold arcBound at hn hns
  refine .intro (by omega) (by omega) (by omega) fun a ha => ?_
  have := hns a ha
  omega

theorem arcs_of_ofArcs (h : ofArcs arcs = .ok id) : id.arcs = arcs := by
  unfold ofArcs at h
  split at h
  case h_2 => cases h
  case h_1 first second rest =>
    dsimp only at h
    split at h
    · cases h
    split at h
    · cases h
    rename_i hfirst hsecond
    split at h
    · cases h
    split at h
    case isFalse => cases h
    case isTrue =>
      cases h
      simp only [Bool.and_eq_true, decide_eq_true_eq, not_and, not_le] at hsecond
      rw [arcs_eq (numbers_flatMap _)]
      congr 1
      · omega
      congr 1
      omega

theorem exists_ofArcs (h : IsPath arcs) : ∃ id, ofArcs arcs = .ok id := by
  obtain ⟨hfirst, hsecond, hhead, hrest⟩ := h
  rename_i first second rest
  have hlt : ∀ a ∈ (40 * first + second) :: rest, a < arcBound := by
    rw [List.forall_mem_cons]
    refine ⟨by rw [arcBound]; omega, fun a ha => ?_⟩
    have := hrest a ha
    rw [arcBound]
    omega
  refine ⟨⟨_, fault?_flatMap (List.cons_ne_nil _ _) hlt⟩, ?_⟩
  rw [ofArcs]
  rw [if_neg (by omega), if_neg (by simp; omega), if_neg (by rw [UInt64.size]; omega), dif_pos hlt]

theorem ofArcs_eq_ok_iff : ofArcs arcs = .ok id ↔ IsPath arcs ∧ id.arcs = arcs := by
  constructor
  · intro h
    have harcs := arcs_of_ofArcs h
    exact ⟨harcs ▸ id.isPath_arcs, harcs⟩
  · rintro ⟨hpath, harcs⟩
    obtain ⟨b, hb⟩ := exists_ofArcs hpath
    rw [hb, arcs_injective ((arcs_of_ofArcs hb).trans harcs.symm)]

theorem ofArcs_arcs (id : Oid) : ofArcs id.arcs = .ok id :=
  ofArcs_eq_ok_iff.2 ⟨id.isPath_arcs, rfl⟩

/-! ## Dotted text -/

theorem split_eq_splitOn (sep : Char) (cs : List Char) : split sep cs = cs.splitOn sep := by
  induction cs with
  | nil => rfl
  | cons c cs ih =>
    rw [split, List.splitOn_cons_eq_if_modifyHead, ← ih]
    simp only [beq_iff_eq]
    split
    · rfl
    · cases hs : split sep cs with
      | nil => exact absurd (ih.symm.trans hs) (List.splitOn_ne_nil _ _)
      | cons part parts => rfl

theorem IsPath.lt_size (h : IsPath arcs) : ∀ a ∈ arcs, a < UInt64.size := by
  obtain ⟨hfirst, hsecond, hhead, hrest⟩ := h
  rw [UInt64.size, List.forall_mem_cons, List.forall_mem_cons]
  refine ⟨by omega, by omega, fun a ha => ?_⟩
  have := hrest a ha
  omega

theorem ofText_text (id : Oid) : ofText id.text = .ok id := by
  have hparts : (id.arcs.map Decimal.write).mapM (arcOfText id.text) = .ok id.arcs := by
    rw [List.mapM_map]
    conv => rhs; rw [← List.map_id id.arcs]
    refine mapM_eq_pure fun a ha => ?_
    rw [Function.comp_apply, arcOfText, Decimal.read?_write (id.isPath_arcs.lt_size a ha)]
    rfl
  rw [ofText, split_eq_splitOn, splitOn_text, hparts]
  exact id.ofArcs_arcs

/-! ## Descendants -/

variable {a b c : Oid} {arc : Nat}

/-- Octets can only begin with those of an identifier where its last number ends. -/
theorem octets_prefix_iff : b.octets <+: a.octets ↔ numbers b.octets <+: numbers a.octets := by
  constructor
  · rintro ⟨t, ht⟩
    rw [← ht, b.numbers_append]
    exact List.prefix_append _ _
  · rintro ⟨ns, hns⟩
    rw [← a.flatMap_numbers, ← hns, List.flatMap_append, b.flatMap_numbers]
    exact List.prefix_append _ _

theorem arcs_prefix_iff : b.arcs <+: a.arcs ↔ numbers b.octets <+: numbers a.octets := by
  obtain ⟨m, ms, hm⟩ := a.exists_numbers_eq
  obtain ⟨n, ns, hn⟩ := b.exists_numbers_eq
  rw [arcs_eq hm, arcs_eq hn, hm, hn]
  simp only [List.cons_prefix_cons, ← and_assoc]
  apply and_congr_left'
  omega

theorem isDescendantOf_iff :
    a.isDescendantOf b = true ↔ b.arcs <+: a.arcs ∧ b.arcs ≠ a.arcs := by
  rw [isDescendantOf, Bool.and_eq_true, decide_eq_true_eq, List.isPrefixOf_iff_prefix,
    arcs_prefix_iff, ← octets_prefix_iff, and_comm]
  refine and_congr_right fun hprefix => ?_
  rw [arcs_injective.ne_iff]
  constructor
  · rintro hlt rfl
    exact Nat.lt_irrefl _ hlt
  · intro hne
    apply Nat.lt_of_le_of_ne hprefix.length_le
    intro hlen
    apply hne
    cases a
    cases b
    simpa using hprefix.eq_of_length hlen

theorem child_eq_ok_iff :
    id.child arc = .ok c ↔ arc < arcBound ∧ c.octets = id.octets ++ Base128.octets arc := by
  obtain ⟨s, hs⟩ := c
  rw [child]
  split <;> rename_i h <;> simp [h, eq_comm]

theorem arcs_of_child (h : id.child arc = .ok c) : c.arcs = id.arcs ++ [arc] := by
  obtain ⟨n, ns, hn⟩ := id.exists_numbers_eq
  have hc : numbers c.octets = n :: (ns ++ [arc]) := by
    rw [(child_eq_ok_iff.1 h).2, id.numbers_append, hn, ← numbers_flatMap [arc]]
    simp
  rw [arcs_eq hn, arcs_eq hc]
  rfl

/-- An identifier descends from another exactly if its path goes on from the end of the other path.
A path can be given any one more arc of 63 bits. That makes a descendant, which is accepted as it is
and is the identifier of the longer path. -/
theorem descendants_by_path :
    (∀ a b : Oid, a.isDescendantOf b = true ↔ b.arcs <+: a.arcs ∧ b.arcs ≠ a.arcs) ∧
    (∀ (id : Oid) arc, (∃ c, id.child arc = .ok c) ↔ arc ≤ 2 ^ 63 - 1) ∧
    ∀ (id c : Oid) arc, id.child arc = .ok c →
      c.arcs = id.arcs ++ [arc] ∧ c.isDescendantOf id = true ∧ ofContents c.octets = .ok c ∧
        ofArcs (id.arcs ++ [arc]) = .ok c := by
  refine ⟨fun a b => isDescendantOf_iff, fun id arc => ?_, fun id c arc h => ?_⟩
  · rw [Nat.le_sub_one_iff_lt (by decide)]
    constructor
    · rintro ⟨c, h⟩
      exact (child_eq_ok_iff.1 h).1
    · intro h
      exact ⟨⟨_, fault?_append id.valid h⟩, child_eq_ok_iff.2 ⟨h, rfl⟩⟩
  · have harcs := arcs_of_child h
    refine ⟨harcs, ?_, c.ofContents_octets, harcs ▸ c.ofArcs_arcs⟩
    rw [isDescendantOf_iff, harcs]
    exact ⟨List.prefix_append _ _, by simp⟩

theorem descendants_by_path_longArc :
    ∃ c, child ⟨[0x55, 0x1D], by decide⟩ 300 = .ok c ∧ c.octets = [0x55, 0x1D, 0x82, 0x2C] ∧
      c.arcs = [2, 5, 29] ++ [300] ∧ c.isDescendantOf ⟨[0x55, 0x1D], by decide⟩ = true ∧
      ofArcs [2, 5, 29, 300] = .ok c := by
  obtain ⟨-, -, hchild⟩ := descendants_by_path
  have h : child ⟨[0x55, 0x1D], by decide⟩ 300 = .ok ⟨[0x55, 0x1D, 0x82, 0x2C], by decide⟩ := by
    cbv
  obtain ⟨harcs, hdesc, -, hpath⟩ := hchild _ _ _ h
  exact ⟨_, h, rfl, harcs, hdesc, hpath⟩

end Oid

end Tlv
