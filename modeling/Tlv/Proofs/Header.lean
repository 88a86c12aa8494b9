import Tlv.Proofs.Numeral
import Tlv.Encoding
import Tlv.Value.Reading

/-! # Spellings of identifier and length octets

A header can be spelled in several ways: a small tag number may stand behind the first octet, and
a length may take more octets than it needs or be left open. A rule admits some of these forms.
Every form that a rule admits is read back under it, whatever octets follow, and so no unit is the
beginning of another.
-/

namespace Tlv

/-- The reading gives `a` and leaves `t`. -/
def Reads {ε α : Type} {s : Octets} (r : Except ε (α × Rest s)) (a : α) (t : Octets) : Prop :=
  ∃ h, r = .ok (a, ⟨t, h⟩)

theorem Reads.unique {ε α : Type} {f : (s : Octets) → Except ε (α × Rest s)} {a b : α}
    {u w s t : Octets} (h : Reads (f u) a s) (h' : Reads (f w) b t) (e : u = w) :
    a = b ∧ s = t := by
  subst e
  obtain ⟨_, h⟩ := h
  obtain ⟨_, h'⟩ := h'
  cases h.symm.trans h'
  exact ⟨rfl, rfl⟩

def outcome {ε α : Type} {s : Octets} (r : Except ε (α × Rest s)) : Except ε (α × Octets) :=
  r.map (Prod.map id Subtype.val)

section

variable {ε α : Type} {s t : Octets} {r : Except ε (α × Rest s)} {a : α} {e : ε}

theorem reads_iff_outcome_eq : Reads r a t ↔ outcome r = .ok (a, t) := by
  rcases r with e | ⟨b, u, hu⟩
  · simp [Reads, outcome, Except.map]
  · simp only [Reads, outcome, Except.map, Except.ok.injEq, Prod.map, Prod.mk.injEq, id]
    constructor
    · rintro ⟨_, rfl, h⟩
      exact ⟨rfl, congrArg Subtype.val h⟩
    · rintro ⟨rfl, rfl⟩
      exact ⟨hu, rfl, rfl⟩

theorem outcome_eq_error_iff : outcome r = .error e ↔ r = .error e := by
  cases r <;> simp [outcome, Except.map]

end

/-- The reading gives `a` and takes the first `k` octets. -/
def Consumes {ε α : Type} {s : Octets} (r : Except ε (α × Rest s)) (a : α) (k : Nat) : Prop :=
  k ≤ s.length ∧ Reads r a (s.drop k)

/-- Where all that is read is spelled in one of some ways, a spelling is what is taken. -/
theorem consumes_iff {ε α : Type} {s : Octets} {r : Except ε (α × Rest s)} {a : α} {k : Nat}
    {P : Octets → Prop} (h : ∀ t, Reads r a t ↔ ∃ p, P p ∧ s = p ++ t) :
    Consumes r a k ↔ ∃ p, P p ∧ p <+: s ∧ k = p.length := by
  rw [Consumes, h]
  constructor
  · rintro ⟨hk, p, hp, hs⟩
    refine ⟨p, hp, ⟨_, hs.symm⟩, ?_⟩
    have hlen := congrArg List.length hs
    rw [List.length_append, List.length_drop] at hlen
    omega
  · rintro ⟨p, hp, ⟨t, rfl⟩, rfl⟩
    exact ⟨by simp, p, hp, by simp⟩

theorem exists_consumes {ε α : Type} {s : Octets} {r : Except ε (α × Rest s)} {a : α}
    {u : Rest s} {P : Octets → Prop} (h : ∀ t, Reads r a t ↔ ∃ p, P p ∧ s = p ++ t)
    (hr : r = .ok (a, u)) : ∃ k, Consumes r a k := by
  obtain ⟨p, hp, hs⟩ := (h u).1 ⟨u.2, hr⟩
  exact ⟨p.length, (consumes_iff h).2 ⟨p, hp, ⟨u, hs.symm⟩, rfl⟩⟩

namespace Identifier

variable {i : Identifier} {low : Nat}

theorem toNat_firstOctet (h : low < 32) :
    (i.firstOctet low).toNat = i.tag.cls.bits.toNat + (if i.constructed then 32 else 0) + low := by
  rw [firstOctet, UInt8.toNat_ofNat']
  cases i.tag.cls <;> cases i.constructed <;> simp [TagClass.bits] <;> omega

theorem ofIdentifier_firstOctet (h : low < 32) :
    TagClass.ofIdentifier (i.firstOctet low) = i.tag.cls := by
  simp only [TagClass.ofIdentifier, UInt8.lt_iff_toNat_lt, toNat_firstOctet h]
  cases i.tag.cls <;> cases i.constructed <;> simp [TagClass.bits] <;> grind

theorem constructed_firstOctet (h : low < 32) :
    ((i.firstOctet low).toNat / 32 % 2 == 1) = i.constructed := by
  rw [toNat_firstOctet h, Bool.eq_iff_iff, beq_iff_eq]
  cases i.tag.cls <;> cases i.constructed <;> simp [TagClass.bits] <;> omega

theorem low_firstOctet (h : low < 32) : (i.firstOctet low).toNat % 32 = low := by
  rw [toNat_firstOctet h]
  cases i.tag.cls <;> cases i.constructed <;> simp [TagClass.bits] <;> omega

theorem firstOctet_ne_zero (h : low < 32) (h0 : i.tag.cls = .universal → low ≠ 0) :
    i.firstOctet low ≠ 0 := by
  rw [ne_eq, ← UInt8.toNat_inj, toNat_firstOctet h]
  cases hc : i.tag.cls with
  | universal =>
    have := h0 hc
    simp
    omega
  | _ => simp [TagClass.bits]

theorem outcome_readNumber_cons {acc : Nat} (b : UInt8) (s : Octets) :
    outcome (readNumber acc (b :: s)) =
      if UInt32.size / 128 ≤ acc then .error .tagNumberTooLarge
      else if Base128.continues b then outcome (readNumber (acc * 128 + Base128.bits b) s)
      else .ok (acc * 128 + Base128.bits b, s) := by
  rw [readNumber]
  by_cases hacc : acc < UInt32.size / 128
  · rw [if_pos hacc, if_neg (Nat.not_le.2 hacc)]
    dsimp only
    split
    · cases readNumber (acc * 128 + Base128.bits b) s <;> rfl
    · rfl
  · rw [if_neg hacc, if_pos (Nat.not_lt.1 hacc)]
    rfl

theorem bits_high (n : Nat) : n / 128 * 128 + Base128.bits (UInt8.ofNat (n % 128 + 128)) = n := by
  simp [Base128.bits]
  omega

theorem bits_low (n : Nat) : n / 128 * 128 + Base128.bits (UInt8.ofNat (n % 128)) = n := by
  simp [Base128.bits]
  omega

theorem outcome_readNumber_continued {n : Nat} (hn : n < UInt32.size / 128) (s : Octets) :
    outcome (readNumber 0 (Base128.continued n ++ s)) = outcome (readNumber n s) := by
  induction n using Nat.strongRecOn generalizing s with
  | _ n ih =>
    rcases Nat.eq_zero_or_pos n with rfl | hpos
    · rw [Base128.continued_zero, List.nil_append]
    · have hlt : n / 128 < n := Nat.div_lt_self hpos (by decide)
      rw [Base128.continued_of_pos hpos, List.append_assoc, ih _ hlt (by omega),
        List.singleton_append, outcome_readNumber_cons, if_neg (by omega), bits_high,
        if_pos (Base128.continues_high n)]

theorem readNumber_octets {n : Nat} (hn : n < UInt32.size) (t : Octets) :
    Reads (readNumber 0 (Base128.octets n ++ t)) n t := by
  have hlt : n / 128 < UInt32.size / 128 := by
    rw [UInt32.size] at *
    omega
  rw [reads_iff_outcome_eq, Base128.octets, List.append_assoc, outcome_readNumber_continued hlt,
    List.singleton_append, outcome_readNumber_cons, if_neg (Nat.not_le.2 hlt), bits_low]
  simp [Base128.continues_low]

theorem head?_octets_append (n : Nat) (t : Octets) :
    (Base128.octets n ++ t).head? ≠ some 0x80 := by
  have head_continued : ∀ m, 0 < m → ∀ s, (Base128.continued m ++ s).head? ≠ some 0x80 := by
    intro m
    induction m using Nat.strongRecOn with
    | _ m ih =>
      intro hm s
      rw [Base128.continued_of_pos hm, List.append_assoc]
      rcases Nat.eq_zero_or_pos (m / 128) with h0 | h0
      · simp [h0, Base128.continued_zero, ← UInt8.toNat_inj]
        omega
      · exact ih _ (Nat.div_lt_self hm (by omega)) h0 _
  rw [Base128.octets, List.append_assoc]
  rcases Nat.eq_zero_or_pos (n / 128) with h0 | h0
  · simp [h0, Base128.continued_zero, ← UInt8.toNat_inj]
    omega
  · exact head_continued _ h0 _

/-- The identifier with its number behind the first octet, where small numbers need not be. -/
def highOctets (i : Identifier) : Octets :=
  i.firstOctet 31 :: Base128.octets i.tag.number.toNat

theorem octets_eq_highOctets (h : ¬ i.tag.number < 31) : i.octets = i.highOctets := by
  rw [octets, if_neg h, highOctets]

theorem reads_highOctets {rule : Rule} (h : i.tag.number < 31 → rule.minimalForms = false)
    (t : Octets) : Reads (read rule (i.highOctets ++ t)) i t := by
  obtain ⟨_, hn⟩ := readNumber_octets i.tag.number.toNat_lt t
  have hmin : (i.tag.number.toNat < 31 && rule.minimalForms) = false := by
    rw [Bool.and_eq_false_iff, decide_eq_false_iff_not]
    by_cases hlt : i.tag.number < 31
    · exact .inr (h hlt)
    · exact .inl (by rwa [UInt32.lt_iff_toNat_lt] at hlt)
  rw [highOctets, List.cons_append, read]
  simp only [ofIdentifier_firstOctet, constructed_firstOctet, low_firstOctet, Nat.reduceLT,
    Nat.lt_irrefl, if_false, readHighForm, if_neg (head?_octets_append _ _), hn, hmin,
    UInt32.ofNat_toNat, Bool.false_eq_true]
  exact ⟨_, rfl⟩

theorem reads_octets (rule : Rule) (i : Identifier) (t : Octets) :
    Reads (read rule (i.octets ++ t)) i t := by
  by_cases h : i.tag.number < 31
  · have hlt : i.tag.number.toNat < 31 := by rwa [UInt32.lt_iff_toNat_lt] at h
    rw [octets, if_pos h, List.singleton_append, read]
    simp only [ofIdentifier_firstOctet, constructed_firstOctet, low_firstOctet,
      Nat.lt_trans hlt (Nat.lt_succ_self 31), hlt, if_true, UInt32.ofNat_toNat]
    exact ⟨_, rfl⟩
  · rw [octets_eq_highOctets h]
    exact reads_highOctets (fun hlt => absurd hlt h) t

end Identifier

inductive LengthForm where
  /-- One octet. -/
  | short
  /-- An octet that announces so many digits, and the digits, leading zeros allowed. -/
  | long (digits : Nat)
  /-- Open, up to an end-of-contents marker. -/
  | indefinite
  deriving DecidableEq, Repr

namespace LengthForm

variable {rule : Rule} {form : LengthForm} {n : Nat}

def octets : LengthForm → Nat → Octets
  | short, n => [UInt8.ofNat n]
  | long digits, n => UInt8.ofNat (128 + digits) :: BigEndian.fixed digits n
  | indefinite, _ => [Length.indefiniteOctet]

def length : LengthForm → Nat → Length
  | indefinite, _ => .indefinite
  | _, n => .definite n

theorem length_of_ne (h : form ≠ indefinite) : form.length n = .definite n := by
  cases form with
  | indefinite => exact absurd rfl h
  | _ => rfl

/-- The rule admits the form for the length `n`, and the form has room for it. -/
def Admits (rule : Rule) : LengthForm → Nat → Prop
  | short, n => n < 128
  | long digits, n => 1 ≤ digits ∧ digits ≤ 126 ∧ n < 256 ^ digits ∧
      (rule.minimalForms = true → 128 ≤ n ∧ 256 ^ (digits - 1) ≤ n)
  | indefinite, _ => rule.indefiniteLengths = true

instance (rule : Rule) : (form : LengthForm) → (n : Nat) → Decidable (form.Admits rule n)
  | short, _ => Nat.decLt _ _
  | long _, _ => inferInstanceAs (Decidable (_ ∧ _ ∧ _ ∧ (_ → _)))
  | indefinite, _ => instDecidableEqBool _ _

def shortest (n : Nat) : LengthForm :=
  if n < 128 then short else long (BigEndian.octets n).length

theorem octets_eq (form : LengthForm) (n : Nat) : ∃ b s, form.octets n = b :: s := by
  cases form <;> exact ⟨_, _, rfl⟩

theorem octets_shortest (n : Nat) : (shortest n).octets n = Length.octets n := by
  rw [shortest, Length.octets]
  split
  · rfl
  · rw [octets, BigEndian.fixed_length_octets]

theorem shortest_ne_indefinite (n : Nat) : shortest n ≠ indefinite := by
  unfold shortest
  split <;> simp

theorem admits_shortest (rule : Rule) (h : n < UInt64.size) : (shortest n).Admits rule n := by
  unfold shortest
  split
  · assumption
  · have hpos := BigEndian.length_octets_pos (n := n) (by omega)
    have hle : (BigEndian.octets n).length ≤ 8 := BigEndian.length_octets_le h
    have hlt := BigEndian.value_lt (BigEndian.octets n)
    rw [BigEndian.value_octets] at hlt
    refine ⟨hpos, by omega, hlt, fun _ => ⟨by omega, ?_⟩⟩
    by_contra hn
    have := BigEndian.length_octets_le (Nat.not_le.1 hn)
    omega

theorem head?_fixed {k : Nat} (hk : 1 ≤ k) (hlo : 256 ^ (k - 1) ≤ n) (hhi : n < 256 ^ k) :
    (BigEndian.fixed k n).head? ≠ some 0 := by
  obtain ⟨k, rfl⟩ := Nat.exists_eq_add_of_le' hk
  rw [Nat.add_sub_cancel] at hlo
  have hq : 0 < n / 256 ^ k := Nat.div_pos hlo (by positivity)
  have hq' : n / 256 ^ k < 256 := Nat.div_lt_of_lt_mul (by rwa [pow_succ] at hhi)
  have hw : n >>> (8 * k) = n / 256 ^ k := by rw [Nat.shiftRight_eq_div_pow, Nat.pow_mul]
  simp [BigEndian.fixed, hw, ← UInt8.toNat_inj]
  omega

theorem ofDigits_fixed {k : Nat} (h : (long k).Admits rule n) (hn : n < UInt64.size) :
    Length.ofDigits rule (BigEndian.fixed k n) = .ok n := by
  obtain ⟨hk, _, hlt, hmin⟩ := h
  have hv : BigEndian.value (BigEndian.fixed k n) = n := by
    rw [BigEndian.value_fixed, Nat.mod_eq_of_lt hlt]
  have hs : (BigEndian.significant (BigEndian.fixed k n)).length ≤ 8 :=
    BigEndian.length_significant_le (by rwa [hv])
  rw [Length.ofDigits, hv, if_neg (Nat.not_lt.2 hs), if_neg]
  rintro hnot
  rw [Bool.and_eq_true, Bool.or_eq_true, beq_iff_eq, decide_eq_true_eq] at hnot
  obtain ⟨hr, hz⟩ := hnot
  obtain ⟨h128, hlo⟩ := hmin hr
  rcases hz with hz | hz
  · exact head?_fixed hk hlo hlt hz
  · omega

theorem reads_octets (h : form.Admits rule n) (hn : form ≠ indefinite → n < UInt64.size)
    (t : Octets) : Reads (Length.read rule (form.octets n ++ t)) (form.length n) t := by
  cases form with
  | short =>
    have hb : (UInt8.ofNat n).toNat = n := by
      have : n < 128 := h
      rw [UInt8.toNat_ofNat']
      omega
    have hlt : UInt8.ofNat n < 0x80 := by rwa [UInt8.lt_iff_toNat_lt, hb]
    rw [octets, List.singleton_append, Length.read]
    simp only [if_pos hlt, hb]
    exact ⟨_, rfl⟩
  | long k =>
    obtain ⟨hk, hk', -, -⟩ := id h
    have hb : (UInt8.ofNat (128 + k)).toNat = 128 + k := by
      rw [UInt8.toNat_ofNat']
      omega
    have hlow : ¬ UInt8.ofNat (128 + k) < 0x80 := by
      rw [UInt8.lt_iff_toNat_lt, hb]
      simp
    have hind : UInt8.ofNat (128 + k) ≠ Length.indefiniteOctet := by
      rw [Length.indefiniteOctet, ne_eq, ← UInt8.toNat_inj, hb]
      simp
      omega
    have hres : UInt8.ofNat (128 + k) ≠ 0xFF := by
      rw [ne_eq, ← UInt8.toNat_inj, hb]
      simp
      omega
    have hcount : (UInt8.ofNat (128 + k)).toNat - 128 = k := by omega
    have hlen : (BigEndian.fixed k n).length = k := BigEndian.length_fixed k n
    have hhas : Octets.hasAtLeast (BigEndian.fixed k n ++ t) k = true := by
      rw [Octets.hasAtLeast_iff, List.length_append]
      omega
    rw [octets, List.cons_append, Length.read]
    simp only [if_neg hlow, if_neg hind, if_neg hres, hcount, if_pos hhas,
      List.take_left' hlen, List.drop_left' hlen, ofDigits_fixed h (hn (by simp))]
    exact ⟨_, rfl⟩
  | indefinite =>
    have hr : rule.indefiniteLengths = true := h
    rw [octets, List.singleton_append, Length.read, if_neg (by decide), if_pos rfl, if_pos hr]
    exact ⟨_, rfl⟩

def leading : LengthForm → Nat → Nat
  | short, n => n
  | long digits, _ => 128 + digits
  | indefinite, _ => 128

theorem head?_octets (form : LengthForm) (n : Nat) (s : Octets) :
    (form.octets n ++ s).head? = some (UInt8.ofNat (form.leading n)) := by
  cases form <;> rfl

theorem leading_lt (h : form.Admits rule n) : form.leading n < 256 := by
  cases form with
  | short => exact Nat.lt_trans h (by decide)
  | long k =>
    have hk := h.2.1
    rw [leading]
    omega
  | indefinite => exact (by decide : 128 < 256)

theorem eq_of_leading_eq {form' : LengthForm} {m : Nat} (h : form.Admits rule n)
    (h' : form'.Admits rule m) (he : form.leading n = form'.leading m) : form = form' := by
  cases form <;> cases form' <;> simp only [leading, Admits, long.injEq, reduceCtorEq] at * <;>
    omega

/-- Length octets tell their form, and the length unless they leave it open. -/
theorem octets_append_inj {form' : LengthForm} {m : Nat} {s t : Octets}
    (h : form.Admits rule n) (h' : form'.Admits rule m)
    (he : form.octets n ++ s = form'.octets m ++ t) :
    form = form' ∧ (form ≠ indefinite → n = m) ∧ s = t := by
  have hlead : form.leading n = form'.leading m := by
    have hhead := congrArg List.head? he
    rw [head?_octets, head?_octets, Option.some_inj, ← UInt8.toNat_inj] at hhead
    rwa [UInt8.toNat_ofNat', UInt8.toNat_ofNat', Nat.mod_eq_of_lt (leading_lt h),
      Nat.mod_eq_of_lt (leading_lt h')] at hhead
  obtain rfl := eq_of_leading_eq h h' hlead
  refine ⟨rfl, ?_⟩
  cases form with
  | short => exact ⟨fun _ => hlead, (List.cons.inj he).2⟩
  | long k =>
    have hlen : (BigEndian.fixed k n).length = (BigEndian.fixed k m).length := by
      rw [BigEndian.length_fixed, BigEndian.length_fixed]
    obtain ⟨hdigits, rfl⟩ := List.append_inj (List.cons.inj he).2 hlen
    have hvalue := congrArg BigEndian.value hdigits
    rw [BigEndian.value_fixed, BigEndian.value_fixed, Nat.mod_eq_of_lt h.2.2.1,
      Nat.mod_eq_of_lt h'.2.2.1] at hvalue
    exact ⟨fun _ => hvalue, rfl⟩
  | indefinite => exact ⟨fun hne => absurd rfl hne, (List.cons.inj he).2⟩

end LengthForm

structure Header where
  tag : Tag
  /-- The number stands behind the first octet, as numbers from 31 on always do. -/
  high : Bool
  length : LengthForm
  deriving DecidableEq, Repr

namespace Header

variable {rule : Rule} {h : Header} {n : Nat}

def identifierOctets (h : Header) (constructed : Bool) : Octets :=
  if h.high then Identifier.highOctets ⟨h.tag, constructed⟩
  else Identifier.octets ⟨h.tag, constructed⟩

def frame (h : Header) (constructed : Bool) (contents : Octets) : Octets :=
  h.identifierOctets constructed ++ (h.length.octets contents.length ++
    if h.length = .indefinite then contents ++ Encoding.endMarker else contents)

/-- The rule admits the header before `n` octets of contents. -/
def Admits (rule : Rule) (h : Header) (n : Nat) : Prop :=
  h.tag ≠ .endOfContents ∧
    (h.high = true → h.tag.number < 31 → rule.minimalForms = false) ∧ h.length.Admits rule n

instance (rule : Rule) (h : Header) (n : Nat) : Decidable (h.Admits rule n) :=
  inferInstanceAs (Decidable (_ ∧ (_ → _ → _) ∧ _))

/-- The header that takes the fewest octets, for a length that is left open on request. -/
def shortest (tag : Tag) (indefinite : Bool) (n : Nat) : Header :=
  ⟨tag, false, if indefinite then .indefinite else .shortest n⟩

theorem length_lt_frame (h : Header) (constructed : Bool) (s : Octets) :
    s.length < (h.frame constructed s).length := by
  obtain ⟨b, t, ht⟩ := h.length.octets_eq s.length
  rw [frame, ht]
  split <;> simp <;> omega

theorem frame_shortest (tag : Tag) (constructed indefinite : Bool) (contents : Octets) :
    (shortest tag indefinite contents.length).frame constructed contents =
      Encoding.frame ⟨tag, constructed⟩ indefinite contents := by
  rw [frame, Encoding.frame, identifierOctets, shortest]
  cases indefinite with
  | true => simp [LengthForm.octets]
  | false => simp [LengthForm.octets_shortest, LengthForm.shortest_ne_indefinite]

theorem reads_identifierOctets (ha : h.Admits rule n) (constructed : Bool) (t : Octets) :
    Reads (Identifier.read rule (h.identifierOctets constructed ++ t)) ⟨h.tag, constructed⟩ t := by
  by_cases hh : h.high = true
  · rw [identifierOctets, if_pos hh]
    exact Identifier.reads_highOctets (ha.2.1 hh) t
  · rw [identifierOctets, if_neg hh]
    exact Identifier.reads_octets rule _ t

theorem identifierOctets_eq (hn : h.tag ≠ .endOfContents) (constructed : Bool) :
    ∃ a s, h.identifierOctets constructed = a :: s ∧ a ≠ 0 := by
  rw [identifierOctets, Identifier.octets]
  split
  · exact ⟨_, _, rfl, Identifier.firstOctet_ne_zero (by omega) (by omega)⟩
  split
  case isTrue hlt =>
    rw [UInt32.lt_iff_toNat_lt] at hlt
    refine ⟨_, _, rfl, Identifier.firstOctet_ne_zero (Nat.lt_trans hlt (by decide)) ?_⟩
    rintro hc h0
    obtain ⟨⟨cls, number⟩, high, form⟩ := h
    obtain rfl : cls = .universal := hc
    obtain rfl : number = 0 := UInt32.toNat_inj.1 h0
    exact hn rfl
  case isFalse => exact ⟨_, _, rfl, Identifier.firstOctet_ne_zero (by omega) (by omega)⟩

/-- Where contents end is told by their header, or by the marker behind them. -/
theorem frame_append_inj {h' : Header} {constructed constructed' : Bool} {c c' s t : Octets}
    (ha : h.Admits rule c.length) (ha' : h'.Admits rule c'.length)
    (he : h.frame constructed c ++ s = h'.frame constructed' c' ++ t) :
    constructed = constructed' ∧ h.length = h'.length ∧
      (h.length ≠ .indefinite → c = c' ∧ s = t) ∧
      (h.length = .indefinite →
        c ++ (Encoding.endMarker ++ s) = c' ++ (Encoding.endMarker ++ t)) := by
  simp only [frame, List.append_assoc] at he
  obtain ⟨hi, he⟩ := (reads_identifierOctets ha constructed _).unique
    (reads_identifierOctets ha' constructed' _) he
  obtain ⟨hl, hn, he⟩ := LengthForm.octets_append_inj ha.2.2 ha'.2.2 he
  refine ⟨congrArg Identifier.constructed hi, hl, fun hne => ?_, fun hind => ?_⟩
  · rw [if_neg hne, if_neg (hl ▸ hne)] at he
    exact List.append_inj he (hn hne)
  · rw [if_pos hind, if_pos (hl ▸ hind)] at he
    simpa only [List.append_assoc] using he

end Header

namespace Encoding

/-- A unit of definite length tells where it ends. -/
theorem frame_append_inj {i j : Identifier} {c d s t : Octets} (hc : c.length < UInt64.size)
    (hd : d.length < UInt64.size) (h : frame i false c ++ s = frame j false d ++ t) :
    i = j ∧ c = d ∧ s = t := by
  simp only [frame, Bool.false_eq_true, if_false, List.append_assoc,
    ← LengthForm.octets_shortest] at h
  obtain ⟨hi, ht⟩ := (Identifier.reads_octets .der i _).unique (Identifier.reads_octets .der j _) h
  obtain ⟨-, hl, ht⟩ := LengthForm.octets_append_inj (LengthForm.admits_shortest .der hc)
    (LengthForm.admits_shortest .der hd) ht
  exact ⟨hi, List.append_inj ht (hl (LengthForm.shortest_ne_indefinite _))⟩

theorem length_lt_frame (i : Identifier) (indefinite : Bool) (c : Octets) :
    c.length < (frame i indefinite c).length := by
  rw [show i = ⟨i.tag, i.constructed⟩ from rfl, ← Header.frame_shortest]
  exact Header.length_lt_frame _ _ c

/-- The octets are one unit of definite length. -/
def IsUnit (s : Octets) : Prop :=
  ∃ i c, c.length < UInt64.size ∧ s = frame i false c

theorem IsUnit.prefix_eq {s t : Octets} (hs : IsUnit s) (ht : IsUnit t) (h : s <+: t) :
    s = t := by
  obtain ⟨i, c, hc, rfl⟩ := hs
  obtain ⟨j, d, hd, rfl⟩ := ht
  obtain ⟨u, hu⟩ := h
  rw [← List.append_nil (frame j false d)] at hu
  obtain ⟨rfl, rfl, -⟩ := frame_append_inj hc hd hu
  rfl

/-- Units that are written one after the other are told apart again. -/
theorem flatten_inj {xs ys : List Octets} (hx : ∀ s ∈ xs, IsUnit s) (hy : ∀ s ∈ ys, IsUnit s)
    (h : xs.flatten = ys.flatten) : xs = ys := by
  have ne_nil {s : Octets} (hs : IsUnit s) (t : Octets) : s ++ t ≠ [] := by
    obtain ⟨i, c, -, rfl⟩ := hs
    have hlt := length_lt_frame i false c
    apply List.append_ne_nil_of_left_ne_nil
    exact List.ne_nil_of_length_pos (by omega)
  induction xs generalizing ys with
  | nil =>
    cases ys with
    | nil => rfl
    | cons t ys => exact absurd h.symm (ne_nil (hy t List.mem_cons_self) ys.flatten)
  | cons s xs ih =>
    cases ys with
    | nil => exact absurd h (ne_nil (hx s List.mem_cons_self) xs.flatten)
    | cons t ys =>
      rw [List.forall_mem_cons] at hx hy
      obtain ⟨⟨i, c, hc, rfl⟩, hx⟩ := hx
      obtain ⟨⟨j, d, hd, rfl⟩, hy⟩ := hy
      obtain ⟨rfl, rfl, hs⟩ := frame_append_inj hc hd h
      rw [ih hx hy hs]

end Encoding

end Tlv
