import Tlv.Proofs.Arcs
import Tlv.Proofs.Words
import Tlv.Value.Equality

/-! # Object identifiers in words

Arcs and the numbers of contents octets fit words of 64 bits. The groups of a number can be cut out
of a word and put together in one by shifts, and the first two arcs joined and taken apart, without
an overflow. The sum of the first two arcs alone may be too large, and is then refused.
-/

namespace Tlv

open Word

namespace Base128

variable {i k m : Nat} {n : BitVec 64}

/-- The group that starts at bit `7 * i` of the word. All groups but the lowest one announce
another. -/
def groupOfWord? (n : BitVec 64) (i : Nat) : Option UInt8 := do
  let group := UInt8.ofBitVec (((← shiftRight? n (i * 7)) &&& 0x7F).setWidth 8)
  return if i = 0 then group else group ||| 0x80

/-- How many groups the bits of the word take that are not leading zeros. -/
def groupCount? (n : BitVec 64) : Option Nat := do
  return (max (← sub? 64 n.clz).toNat 1 + 6) / 7

def octetsOfWord? (n : BitVec 64) : Option Octets := do
  (List.range (← groupCount? n)).reverse.mapM (groupOfWord? n)

theorem or_high (h : m < 128) : UInt8.ofNat m ||| 0x80 = UInt8.ofNat (m + 128) := by
  have hor := Nat.two_pow_add_eq_or_of_lt (i := 7) h 1
  rw [← UInt8.toNat_inj, UInt8.toNat_or, UInt8.toNat_ofNat', UInt8.toNat_ofNat',
    Nat.mod_eq_of_lt (by omega), Nat.mod_eq_of_lt (by omega), Nat.or_comm, Nat.add_comm]
  exact hor.symm

theorem groupOfWord?_eq (hi : i < 10) :
    groupOfWord? n i =
      some (UInt8.ofNat (n.toNat / 128 ^ i % 128 + if i = 0 then 0 else 128)) := by
  have hgroup : (n >>> (i * 7) &&& 0x7F).toNat = n.toNat / 128 ^ i % 128 := by
    rw [BitVec.toNat_and, BitVec.toNat_ushiftRight, Nat.shiftRight_eq_div_pow, Nat.mul_comm,
      Nat.pow_mul]
    exact Nat.and_two_pow_sub_one_eq_mod _ 7
  have hoctet : UInt8.ofBitVec ((n >>> (i * 7) &&& 0x7F).setWidth 8) =
      UInt8.ofNat (n.toNat / 128 ^ i % 128) := by
    rw [← hgroup, ← UInt8.toNat_inj, UInt8.toNat_ofNat']
    exact BitVec.toNat_setWidth _ _
  rw [groupOfWord?, shiftRight?, if_pos (by omega), Option.bind_eq_bind, Option.bind_some, hoctet]
  dsimp only
  split
  · rfl
  · rw [or_high (Nat.mod_lt _ (by decide))]
    rfl

/-- As many groups as the bits of a number need leave no leading zero group. -/
theorem continued_eq_map (hlt : m < 128 ^ k) (hle : k ≠ 0 → 128 ^ (k - 1) ≤ m) :
    continued m = (List.range k).reverse.map fun i => UInt8.ofNat (m / 128 ^ i % 128 + 128) := by
  induction k generalizing m with
  | zero => simp [show m = 0 by simpa using hlt, continued_zero]
  | succ k ih =>
    have hle : 128 ^ k ≤ m := hle (by omega)
    have hpos : 0 < m := Nat.lt_of_lt_of_le (by positivity) hle
    rw [pow_succ] at hlt
    rw [continued_of_pos hpos, ih (by omega)]
    · simp [List.range_succ_eq_map, pow_succ', Nat.div_div_eq_div_mul]
    · intro hk
      rwa [Nat.le_div_iff_mul_le (by decide), pow_sub_one_mul hk]

theorem exists_groupCount? (n : BitVec 64) :
    ∃ k < 10, groupCount? n = some (k + 1) ∧ n.toNat < 128 ^ (k + 1) ∧
      (k ≠ 0 → 128 ^ k ≤ n.toNat) := by
  have hzeros : n.clz.toNat ≤ 64 := BitVec.clz_le
  obtain ⟨bits, hbits, hsub⟩ : ∃ bits, sub? 64 n.clz = some bits ∧ n.clz.toNat + bits.toNat = 64 :=
    ⟨64 - n.clz, if_pos hzeros, by rw [BitVec.toNat_sub_of_le hzeros]; simp; omega⟩
  have hpow (k : Nat) : 128 ^ k = 2 ^ (7 * k) := (Nat.pow_mul 2 7 k).symm
  refine ⟨(max bits.toNat 1 + 6) / 7 - 1, by omega, ?_, ?_, fun hk => ?_⟩
  · rw [groupCount?, hbits]
    simp
    omega
  · rw [hpow]
    apply Nat.lt_of_lt_of_le BitVec.toNat_lt_two_pow_sub_clz
    exact Nat.pow_le_pow_right (by decide) (by omega)
  · have hne : n ≠ 0 := by
      rintro rfl
      simp at hsub
      omega
    rw [hpow]
    refine Nat.le_trans ?_ (BitVec.two_pow_sub_clz_le_toNat_of_ne_zero (by decide) hne)
    exact Nat.pow_le_pow_right (by decide) (by omega)

theorem octetsOfWord?_eq (n : BitVec 64) : octetsOfWord? n = some (octets n.toNat) := by
  obtain ⟨k, hk10, hk, hlt, hle⟩ := exists_groupCount? n
  have hlow : continued (n.toNat / 128) =
      (List.range k).reverse.map fun i => UInt8.ofNat (n.toNat / 128 / 128 ^ i % 128 + 128) := by
    rw [pow_succ] at hlt
    refine continued_eq_map (by omega) fun hk0 => ?_
    rw [Nat.le_div_iff_mul_le (by decide), pow_sub_one_mul hk0]
    exact hle hk0
  rw [octetsOfWord?, hk, Option.bind_eq_bind, Option.bind_some,
    mapM_eq_pure fun i hi => groupOfWord?_eq (by simp at hi; omega), octets, hlow]
  simp [List.range_succ_eq_map, pow_succ', Nat.div_div_eq_div_mul]

end Base128

namespace Oid

open Base128 (and_high_eq_zero_iff bits continues octetsOfWord?)

def wordsFrom? (acc : BitVec 64) : Octets → Option (List (BitVec 64))
  | [] => some []
  | b :: s => do
    let n := (← shiftLeft? acc 7) ||| (b &&& 0x7F).toBitVec.setWidth 64
    if b &&& 0x80 = 0 then return n :: (← wordsFrom? 0 s) else wordsFrom? n s

def firstArcWord (n : BitVec 64) : BitVec 64 :=
  if n / 40 < 2 then n / 40 else 2

def arcWords? (s : Octets) : Option (List (BitVec 64)) := do
  match ← wordsFrom? 0 s with
  | [] => return []
  | n :: ns => return firstArcWord n :: (← sub? n (← mul? (firstArcWord n) 40)) :: ns

def greatestArc : BitVec 64 := 0x7FFFFFFFFFFFFFFF

/-- The octets of a path in words. That the first two arcs overflow is found out, and is no overflow
of the computation. -/
def octetsOfArcWords? : List (BitVec 64) → Option (Result Octets)
  | first :: second :: rest =>
    if 2 < first then some (.error (.invalidArgument (.firstArc first.toNat)))
    else if first < 2 && 40 ≤ second then
      some (.error (.invalidArgument (.secondArc first.toNat second.toNat)))
    else
      match (mul? first 40).bind (add? · second) with
      | none => some (.error (.invalidArgument .arcOverflow))
      | some head =>
        if greatestArc < head || rest.any (greatestArc < ·) then
          some (.error (.invalidArgument .arcTooLarge))
        else do return .ok (← (head :: rest).mapM octetsOfWord?).flatten
  | _ => some (.error (.invalidArgument .tooFewArcs))

variable {groups : Nat} {acc : BitVec 64} {b : UInt8} {s : Octets}

theorem toNat_zero_lt : (0 : BitVec 64).toNat < 128 ^ 0 := by decide

theorem exists_wordsFrom? (hf : faultFrom groups s = none) (hacc : acc.toNat < 128 ^ groups) :
    ∃ ns, wordsFrom? acc s = some ns ∧ ns.map BitVec.toNat = numbersFrom acc.toNat s := by
  induction s generalizing groups acc with
  | nil => exact ⟨[], rfl, rfl⟩
  | cons b s ih =>
    obtain ⟨-, hgroups, hf⟩ := faultFrom_cons_eq_none_iff.1 hf
    have hroom : 128 ^ groups ≤ 128 ^ 8 := Nat.pow_le_pow_right (by decide) (by omega)
    have hfits : acc.toNat * 128 < 2 ^ 64 := by omega
    obtain ⟨m, hm, hn⟩ := Base128.exists_pushed (by decide) hfits b
    rw [wordsFrom?, hm, Option.bind_eq_bind, Option.bind_some]
    cases hb : continues b with
    | true =>
      rw [hb, if_pos rfl] at hf
      obtain ⟨ns, hns, heq⟩ := ih hf (hn ▸ pushed_lt hacc b)
      refine ⟨ns, ?_, ?_⟩
      · dsimp only
        rw [if_neg (by simp [and_high_eq_zero_iff, hb]), hns]
      · rw [numbersFrom_high hb, heq, hn]
    | false =>
      rw [hb, if_neg Bool.false_ne_true] at hf
      obtain ⟨ns, hns, heq⟩ := ih hf toNat_zero_lt
      refine ⟨(m ||| (b &&& 0x7F).toBitVec.setWidth 64) :: ns, ?_, ?_⟩
      · dsimp only
        rw [if_pos (and_high_eq_zero_iff.2 hb), hns]
        rfl
      · rw [numbersFrom_low hb, List.map_cons, heq, hn]
        rfl

theorem toNat_firstArcWord (n : BitVec 64) : (firstArcWord n).toNat = min (n.toNat / 40) 2 := by
  have hdiv : (n / 40).toNat = n.toNat / 40 := BitVec.toNat_udiv
  rw [firstArcWord]
  split <;> rename_i hlt <;> rw [BitVec.lt_def, hdiv] at hlt <;> simp at hlt ⊢ <;> omega

theorem exists_arcWords? (id : Oid) :
    ∃ ws, arcWords? id.octets = some ws ∧ ws.map BitVec.toNat = id.arcs := by
  obtain ⟨ns, hns, heq⟩ := exists_wordsFrom? id.faultFrom_eq_none toNat_zero_lt
  obtain ⟨n, rest, h⟩ := id.exists_numbers_eq
  rw [show numbersFrom (0 : BitVec 64).toNat id.octets = numbers id.octets from rfl, h] at heq
  obtain ⟨n, ns, rfl, rfl, rfl⟩ := List.map_eq_cons_iff.1 heq
  obtain ⟨product, hproduct⟩ : ∃ a : BitVec 64, a.toNat = min (n.toNat / 40) 2 * 40 :=
    exists_toNat_eq (by omega)
  obtain ⟨second, hsecond⟩ : ∃ a : BitVec 64, a.toNat = n.toNat - min (n.toNat / 40) 2 * 40 :=
    exists_toNat_eq (by omega)
  have hmul : mul? (firstArcWord n) 40 = some product :=
    mul?_eq_some_iff.2 (by rw [hproduct, toNat_firstArcWord]; rfl)
  have hsub : sub? n product = some second := sub?_eq_some_iff.2 (by omega)
  refine ⟨firstArcWord n :: second :: ns, ?_, ?_⟩
  · rw [arcWords?, hns, Option.bind_eq_bind, Option.bind_some]
    dsimp only
    rw [hmul, Option.bind_eq_bind, Option.bind_some, hsub]
    rfl
  · simp [arcs_eq h, toNat_firstArcWord, hsecond]

theorem joined_eq_some_iff {first second head : BitVec 64} :
    (mul? first 40).bind (add? · second) = some head ↔
      head.toNat = 40 * first.toNat + second.toNat := by
  rw [Option.bind_eq_some_iff]
  simp only [mul?_eq_some_iff, add?_eq_some_iff]
  constructor
  · rintro ⟨product, hproduct, hhead⟩
    rw [hhead, hproduct, Nat.mul_comm]
    rfl
  · intro hhead
    have hlt := head.isLt
    obtain ⟨product, hproduct⟩ : ∃ a : BitVec 64, a.toNat = 40 * first.toNat :=
      exists_toNat_eq (by omega)
    exact ⟨product, by rw [hproduct, Nat.mul_comm]; rfl, by omega⟩

theorem forall_lt_arcBound_iff {ns : List (BitVec 64)} :
    (∀ a ∈ ns.map BitVec.toNat, a < arcBound) ↔ ns.any (greatestArc < ·) = false := by
  have hlt (n : BitVec 64) : n.toNat < arcBound ↔ ¬greatestArc < n := by
    rw [BitVec.not_lt, BitVec.le_def]
    exact Nat.lt_succ_iff
  simp [hlt]

theorem ofArcs_map_octets {first second head : Nat} {rest : List Nat}
    (hhead : 40 * first + second = head) :
    (ofArcs (first :: second :: rest)).map octets =
      if 2 < first then .error (.invalidArgument (.firstArc first))
      else if first < 2 && 40 ≤ second then .error (.invalidArgument (.secondArc first second))
      else if UInt64.size ≤ head then .error (.invalidArgument .arcOverflow)
      else if ∀ a ∈ head :: rest, a < arcBound then .ok ((head :: rest).flatMap Base128.octets)
      else .error (.invalidArgument .arcTooLarge) := by
  subst hhead
  rw [ofArcs]
  split
  · rfl
  split
  · rfl
  split
  · rfl
  split <;> rfl

theorem octetsOfArcWords?_eq (arcs : List (BitVec 64)) :
    octetsOfArcWords? arcs = some ((ofArcs (arcs.map BitVec.toNat)).map octets) := by
  match arcs with
  | [] | [_] => rfl
  | first :: second :: rest =>
    have hfirst : (2 < first) = (2 < first.toNat) := rfl
    have hlow : (first < 2) = (first.toNat < 2) := rfl
    have hsecond : (40 ≤ second) = (40 ≤ second.toNat) := rfl
    rw [octetsOfArcWords?, List.map_cons, List.map_cons, ofArcs_map_octets rfl]
    simp only [hfirst, hlow, hsecond]
    split
    · rfl
    split
    · rfl
    cases hhead : (mul? first 40).bind (add? · second) with
    | none =>
      have hle : UInt64.size ≤ 40 * first.toNat + second.toNat := by
        by_contra hlt
        obtain ⟨head, h⟩ : ∃ a : BitVec 64, a.toNat = 40 * first.toNat + second.toNat :=
          exists_toNat_eq (Nat.lt_of_not_le hlt)
        rw [joined_eq_some_iff.2 h] at hhead
        cases hhead
      rw [if_pos hle]
    | some head =>
      rw [joined_eq_some_iff] at hhead
      rw [← hhead, if_neg (Nat.not_le.2 head.isLt), ← List.map_cons]
      simp only [forall_lt_arcBound_iff, List.any_cons]
      cases hany : decide (greatestArc < head) || rest.any (greatestArc < ·) with
      | true => simp
      | false =>
        rw [mapM_eq_pure fun n _ => Base128.octetsOfWord?_eq n]
        simp [List.flatMap_def, Function.comp_def, pure]

/-- The octets of an identifier, its arcs and its dotted text determine one another. The paths that
can be built are those of `IsPath`. What a path is built into is accepted as it is and has that
path, and octets that are accepted come back from the arcs and from the text. No step of this
overflows a word of 64 bits. -/
theorem path_correspondence :
    (∀ arcs, (∃ id, ofArcs arcs = .ok id) ↔ IsPath arcs) ∧
    (∀ arcs id, ofArcs arcs = .ok id → id.arcs = arcs ∧ ofContents id.octets = .ok id) ∧
    (∀ s id, ofContents s = .ok id →
      id.octets = s ∧ ofArcs id.arcs = .ok id ∧ ofText id.text = .ok id) ∧
    (∀ a b : Oid, (a = b ↔ a.arcs = b.arcs) ∧ (a = b ↔ a.text = b.text) ∧
      (Value.oid a == .oid b ↔ a = b)) ∧
    (∀ id : Oid, ∃ ws, arcWords? id.octets = some ws ∧ ws.map BitVec.toNat = id.arcs) ∧
    (∀ arcs, octetsOfArcWords? arcs = some ((ofArcs (arcs.map BitVec.toNat)).map octets)) ∧
    ∀ n, octetsOfWord? n = some (Base128.octets n.toNat) := by
  refine ⟨fun arcs => ?_, fun arcs id h => ?_, fun s id h => ?_, fun a b => ?_,
    exists_arcWords?, octetsOfArcWords?_eq, Base128.octetsOfWord?_eq⟩
  · constructor
    · rintro ⟨id, h⟩
      exact (ofArcs_eq_ok_iff.1 h).1
    · exact exists_ofArcs
  · exact ⟨arcs_of_ofArcs h, id.ofContents_octets⟩
  · exact ⟨(octets_of_ofContents h).symm, id.ofArcs_arcs, id.ofText_text⟩
  · exact ⟨arcs_injective.eq_iff.symm, text_injective.eq_iff.symm, beq_iff_eq (a := a)⟩

theorem path_correspondence_greatestArc :
    IsPath [2, 2 ^ 63 - 81, 3] ∧
    ∃ id, ofArcs [2, 2 ^ 63 - 81, 3] = .ok id ∧ id.arcs = [2, 2 ^ 63 - 81, 3] ∧
      ofContents [0xFF, 0xFF, 0xFF, 0xFF, 0xFF, 0xFF, 0xFF, 0xFF, 0x7F, 0x03] = .ok id ∧
      ofText id.text = .ok id := by
  obtain ⟨hpath, hbuilt, hread, -⟩ := path_correspondence
  have h : ofArcs [2, 2 ^ 63 - 81, 3] =
      .ok ⟨[0xFF, 0xFF, 0xFF, 0xFF, 0xFF, 0xFF, 0xFF, 0xFF, 0x7F, 0x03], by decide⟩ := by
    cbv
  obtain ⟨harcs, hoctets⟩ := hbuilt _ _ h
  obtain ⟨-, -, htext⟩ := hread _ _ hoctets
  exact ⟨(hpath _).1 ⟨_, h⟩, _, h, harcs, hoctets, htext⟩

end Oid

end Tlv
