import Tlv.Proofs.Certificates
import Tlv.Proofs.TwosComplement

/-! # Grammars of the parts of certificates

A part is read field by field from the elements of a SEQUENCE, and just those elements are read that
its grammar allows. Each of them is found again in its field, so that the part is written as it was
read, apart from a FALSE that is left out as the default, and from tags that are put on again.
-/

namespace Tlv

open UniversalSchema

namespace Certificate

variable {vs : List Value}

namespace Extension

theorem ofValue_sequence_iff {e : Extension} :
    schema.ofValue (.sequence vs) = .ok e ↔
      vs = [.oid e.id, .octetString e.value] ∧ e.critical = false ∨
        vs = [.oid e.id, .boolean e.critical, .octetString e.value] := by
  obtain ⟨id, critical, value⟩ := e
  constructor
  · intro h
    change parse vs = _ at h
    unfold parse at h
    split at h
    · cases h
    obtain ⟨i, us, hi, h⟩ := (FieldParser.leaves_of_parse h).of_bind
    obtain ⟨r, ws, hr, h⟩ := h.of_bind
    obtain ⟨s, xs, hs, h⟩ := h.of_bind
    obtain ⟨he, rfl⟩ := h.pure_eq
    cases he
    obtain ⟨v, rfl, hv⟩ := hi.of_next
    obtain ⟨w, rfl, hw⟩ := hs.of_next
    rw [takes_oid.ofValue_iff] at hv
    rw [takes_octetString.ofValue_iff] at hw
    subst hv hw
    rcases hr.of_next? with ⟨v, b, rfl, rfl, hb⟩ | ⟨rfl, rfl⟩
    · rw [takes_boolean.optional_eq_some_iff.1 hb]
      exact .inr rfl
    · exact .inl ⟨rfl, rfl⟩
  · rintro (⟨rfl, rfl⟩ | rfl) <;> rfl

theorem toValue_of_ofValue {e : Extension} (h : schema.ofValue (.sequence vs) = .ok e) :
    e.toValue = .sequence (vs.filter fun v => !(v == .boolean false)) := by
  obtain ⟨id, critical, value⟩ := e
  rcases ofValue_sequence_iff.1 h with ⟨rfl, hc⟩ | rfl
  · cases hc
    rfl
  · cases critical <;> rfl

end Extension

namespace BasicConstraints

theorem fields_parse_iff {ca : Bool} {pathLength : Option Integer} :
    fields.parse vs = .ok (ca, pathLength) ↔
      ∃ b : Option Bool, vs = b.toList.map .boolean ++ pathLength.toList.map .integer ∧
        ca = b.getD false := by
  constructor
  · intro h
    obtain ⟨b, us, hb, h⟩ := (FieldParser.leaves_of_parse h).of_bind
    obtain ⟨n, ws, hn, h⟩ := h.of_bind
    obtain ⟨hc, rfl⟩ := h.pure_eq
    cases hc
    refine ⟨b, ?_, rfl⟩
    have hus : us = pathLength.toList.map .integer := by
      rcases hn.of_next? with ⟨v, n, rfl, rfl, hv⟩ | ⟨rfl, rfl⟩
      · rw [takes_integer.optional_eq_some_iff.1 hv]
        rfl
      · rfl
    rcases hb.of_next? with ⟨v, b, rfl, rfl, hv⟩ | ⟨rfl, rfl⟩
    · rw [takes_boolean.optional_eq_some_iff.1 hv, hus]
      rfl
    · exact hus
  · rintro ⟨b, rfl, rfl⟩
    cases b <;> cases pathLength <;> rfl

theorem ofValue_sequence_iff {c : BasicConstraints} :
    schema.ofValue (.sequence vs) = .ok c ↔
      ∃ b : Option Bool, vs = b.toList.map .boolean ++ c.pathLength.toList.map .integer ∧
        c.ca = b.getD false := by
  rw [← fields_parse_iff]
  change parse vs = _ ↔ _
  rw [parse, except_bind_eq_ok_iff]
  constructor
  · rintro ⟨⟨ca, pathLength⟩, hfields, h⟩
    dsimp only at h
    split at h
    · cases h
      exact hfields
    · cases h
  · intro h
    exact ⟨_, h, dif_pos c.nonneg⟩

theorem exists_ofValue_sequence_iff :
    (∃ c, schema.ofValue (.sequence vs) = .ok c) ↔
      ∃ (b : Option Bool) (n : Option Integer),
        vs = b.toList.map .boolean ++ n.toList.map .integer ∧ ∀ m ∈ n, 0 ≤ m.toInt := by
  have hsign (m : Integer) : m.isNegative = false ↔ 0 ≤ m.toInt := by
    rw [← Bool.not_eq_true, Integer.isNegative_iff_toInt_lt, not_lt]
  simp only [← hsign, ofValue_sequence_iff]
  constructor
  · rintro ⟨c, b, hvs, -⟩
    exact ⟨b, c.pathLength, hvs, c.nonneg⟩
  · rintro ⟨b, n, hvs, hn⟩
    exact ⟨⟨b.getD false, n, hn⟩, b, hvs, rfl⟩

theorem toValue_of_ofValue {c : BasicConstraints} (h : schema.ofValue (.sequence vs) = .ok c) :
    c.toValue = .sequence (vs.filter fun v => !(v == .boolean false)) := by
  obtain ⟨ca, pathLength, hn⟩ := c
  obtain ⟨b, rfl, hca⟩ := ofValue_sequence_iff.1 h
  cases hca
  cases pathLength <;> rcases b with _ | _ | _ <;> rfl

end BasicConstraints

namespace AlgorithmIdentifier

theorem ofValue_sequence_iff {a : AlgorithmIdentifier} :
    schema.ofValue (.sequence vs) = .ok a ↔ vs = .oid a.algorithm :: a.parameters.toList := by
  constructor
  · intro h
    obtain ⟨id, us, hid, h⟩ := (FieldParser.leaves_of_parse h).of_bind
    obtain ⟨r, ws, hr, h⟩ := h.of_bind
    obtain ⟨ha, rfl⟩ := h.pure_eq
    cases ha
    obtain ⟨v, rfl, hv⟩ := hid.of_next
    rw [takes_oid.ofValue_iff] at hv
    subst hv
    rcases hr.of_next? with ⟨w, p, rfl, rfl, hw⟩ | ⟨rfl, rfl⟩
    · cases hw
      rfl
    · rfl
  · rintro rfl
    exact ofValue_sequence a.algorithm a.parameters

theorem toValue_of_ofValue {a : AlgorithmIdentifier} (h : schema.ofValue (.sequence vs) = .ok a) :
    a.toValue = .sequence vs := by
  rw [ofValue_sequence_iff.1 h]
  rfl

end AlgorithmIdentifier

namespace SubjectPublicKeyInfo

theorem ofValue_sequence_iff {k : SubjectPublicKeyInfo} :
    schema.ofValue (.sequence vs) = .ok k ↔
      ∃ us, vs = [.sequence us, .bitString k.publicKey] ∧
        AlgorithmIdentifier.schema.ofValue (.sequence us) = .ok k.algorithm := by
  constructor
  · intro h
    obtain ⟨a, us, ha, h⟩ := (FieldParser.leaves_of_parse h).of_bind
    obtain ⟨b, ws, hb, h⟩ := h.of_bind
    obtain ⟨hk, rfl⟩ := h.pure_eq
    cases hk
    obtain ⟨v, rfl, hv⟩ := ha.of_next
    obtain ⟨w, rfl, hw⟩ := hb.of_next
    obtain ⟨us, rfl, -⟩ := Schema.ofValue_ofSequence_eq_ok_iff.1 hv
    rw [takes_bitString.ofValue_iff] at hw
    exact ⟨us, by rw [hw], hv⟩
  · rintro ⟨us, rfl, ha⟩
    have hkey : UniversalSchema.bitString.ofValue (.bitString k.publicKey) = .ok k.publicKey := rfl
    apply FieldParser.parse_of_yields
    refine (FieldParser.yields_next ha _).bind ((FieldParser.yields_next hkey _).bind ?_)
    exact FieldParser.yields_pure _ []

theorem toValue_of_ofValue {k : SubjectPublicKeyInfo} (h : schema.ofValue (.sequence vs) = .ok k) :
    k.toValue = .sequence vs := by
  obtain ⟨us, rfl, ha⟩ := ofValue_sequence_iff.1 h
  rw [toValue, AlgorithmIdentifier.toValue_of_ofValue ha]

end SubjectPublicKeyInfo

namespace AuthorityKeyIdentifier

/-- The object has the context tag of this number, and `base` behind it as an implicit tag. -/
def Carries (t : Tagged) (number : UInt32) (base : Value) : Prop :=
  t.tag = .context number ∧ t.resolve false base.tag.number = .ok base

/-- `v` is what the field is written as that is read from `t`. -/
inductive Rebuilds (t : Tagged) : Value → Prop where
  | keyIdentifier {s : Octets} (h : Carries t 0 (.octetString s)) :
      Rebuilds t (element 0 (.octetString s))
  | issuer {vs : List Value} (h : Carries t 1 (.sequence vs)) :
      Rebuilds t (element 1 (.sequence vs))
  | serial {n : Integer} (h : Carries t 2 (.integer n)) : Rebuilds t (element 2 (.integer n))

theorem Carries.number_eq {t : Tagged} {number : UInt32} {base : Value}
    (h : Carries t number base) : t.tag.number = number :=
  congrArg Tag.number h.1

namespace Rebuilds

variable {t : Tagged} {v : Value}

theorem number_le (h : Rebuilds t v) : t.tag.number ≤ 2 := by
  cases h with
  | keyIdentifier h => exact h.number_eq.trans_le (by decide)
  | issuer h => exact h.number_eq.trans_le (by decide)
  | serial h => exact h.number_eq.trans_le (by decide)

theorem exists_octetString (h : Rebuilds t v) (ht : t.tag.number = 0) :
    ∃ s, Carries t 0 (.octetString s) := by
  cases h with
  | keyIdentifier h => exact ⟨_, h⟩
  | issuer h => exact absurd (h.number_eq.symm.trans ht) (by decide)
  | serial h => exact absurd (h.number_eq.symm.trans ht) (by decide)

theorem exists_sequence (h : Rebuilds t v) (ht : t.tag.number = 1) :
    ∃ vs, Carries t 1 (.sequence vs) := by
  cases h with
  | keyIdentifier h => exact absurd (h.number_eq.symm.trans ht) (by decide)
  | issuer h => exact ⟨_, h⟩
  | serial h => exact absurd (h.number_eq.symm.trans ht) (by decide)

theorem exists_integer (h : Rebuilds t v) (ht : t.tag.number = 2) :
    ∃ n, Carries t 2 (.integer n) := by
  cases h with
  | keyIdentifier h => exact absurd (h.number_eq.symm.trans ht) (by decide)
  | issuer h => exact absurd (h.number_eq.symm.trans ht) (by decide)
  | serial h => exact ⟨_, h⟩

end Rebuilds

def Ascending (ts : List Tagged) : Prop :=
  ts.Pairwise fun t u => t.tag.number < u.tag.number

structure Reflects (a : AuthorityKeyIdentifier) (ts : List Tagged) : Prop where
  keyIdentifier_eq_some_iff s : a.keyIdentifier = some s ↔ ∃ t ∈ ts, Carries t 0 (.octetString s)
  issuer_eq_some_iff vs : a.issuer = some vs ↔ ∃ t ∈ ts, Carries t 1 (.sequence vs)
  serial_eq_some_iff n : a.serial = some n ↔ ∃ t ∈ ts, Carries t 2 (.integer n)

variable {a : AuthorityKeyIdentifier} {t : Tagged} {ts : List Tagged} {v : Value}

section

variable {α : Type} {number : UInt32} {c : UniversalSchema α} {u : UniversalType} {inj : α → Value}
  {rest us : List Value} {o : Option Tagged} {r : Option α}

/-- The optional field is read from the optional object. -/
def FieldOf (number : UInt32) (inj : α → Value) : Option Tagged → Option α → Prop :=
  Option.Rel fun t x => Carries t number (inj x)

theorem carries_iff (hc : Takes c u inj) (htag : ∀ x, (inj x).tag = u.tag) {x : α} :
    Carries t number (inj x) ↔ t.tag = .context number ∧ c.ofTagged false t = .ok x := by
  rw [Carries, hc.ofTagged_iff, htag]
  rfl

theorem exists_of_field_leaves (hc : Takes c u inj) (htag : ∀ x, (inj x).tag = u.tag)
    (h : (field number c).Leaves us r rest) :
    ∃ o, FieldOf number inj o r ∧ us = o.toList.map .tagged ++ rest := by
  rcases h.of_tagged? with ⟨t, x, rfl, rfl, ht, hx⟩ | ⟨rfl, rfl⟩
  · exact ⟨some t, .some ((carries_iff hc htag).2 ⟨ht, hx⟩), rfl⟩
  · exact ⟨none, .none, rfl⟩

theorem yields_field (hc : Takes c u inj) (htag : ∀ x, (inj x).tag = u.tag)
    (h : FieldOf number inj o r) (hrest : ∀ v ∈ rest, v.tag ≠ .context number) :
    (field number c).Yields (o.toList.map .tagged ++ rest) r rest := by
  cases h with
  | none => exact FieldParser.yields_tagged?_none hrest
  | @some t x h =>
    obtain ⟨ht, hx⟩ := (carries_iff hc htag).1 h
    exact FieldParser.yields_tagged?_some ht hx rest

theorem FieldOf.tag_eq (h : FieldOf number inj o r) : ∀ t ∈ o.toList, t.tag = .context number := by
  cases h with
  | none => exact List.forall_mem_nil _
  | some h => simpa using h.1

theorem FieldOf.tag_ne {m : UInt32} (h : FieldOf number inj o r) (hne : number ≠ m) :
    ∀ t ∈ o.toList, t.tag ≠ .context m :=
  fun t ht hm => hne (congrArg Tag.number ((h.tag_eq t ht).symm.trans hm))

theorem FieldOf.eq_some_iff (hc : Takes c u inj) (htag : ∀ x, (inj x).tag = u.tag)
    (h : FieldOf number inj o r) {before after : List Tagged}
    (hbefore : ∀ t ∈ before, t.tag ≠ .context number)
    (hafter : ∀ t ∈ after, t.tag ≠ .context number) {x : α} :
    r = some x ↔ ∃ t ∈ before ++ (o.toList ++ after), Carries t number (inj x) := by
  constructor
  · rintro rfl
    cases h with
    | @some t _ h => exact ⟨t, by simp, h⟩
  · rintro ⟨t, ht, hx⟩
    have hmem : t ∈ o.toList := by
      rcases List.mem_append.1 ht with ht | ht
      · exact absurd hx.1 (hbefore t ht)
      · exact (List.mem_append.1 ht).resolve_right fun ht => hafter t ht hx.1
    cases h with
    | none => cases hmem
    | @some t' y h =>
      cases List.mem_singleton.1 hmem
      have hy := ((carries_iff hc htag).1 h).2
      rw [((carries_iff hc htag).1 hx).2] at hy
      rw [Except.ok.inj hy]

theorem FieldOf.forall₂_rebuilds (h : FieldOf number inj o r)
    (hr : ∀ t x, Carries t number (inj x) → Rebuilds t (element number (inj x))) :
    List.Forall₂ Rebuilds o.toList (r.toList.map fun x => element number (inj x)) := by
  cases h with
  | none => exact .nil
  | some h => exact .cons (hr _ _ h) .nil

theorem exists_fieldOf (ho : ∀ t ∈ o, ∃ v, Rebuilds t v) (hnumber : ∀ t ∈ o, t.tag.number = number)
    (h : ∀ t v, Rebuilds t v → t.tag.number = number → ∃ x, Carries t number (inj x)) :
    ∃ r, FieldOf number inj o r := by
  cases o with
  | none => exact ⟨none, .none⟩
  | some t =>
    obtain ⟨v, hv⟩ := ho t rfl
    obtain ⟨x, hx⟩ := h t v hv (hnumber t rfl)
    exact ⟨some x, .some hx⟩

end

structure ReadFrom (a : AuthorityKeyIdentifier) (k i n : Option Tagged) : Prop where
  keyIdentifier : FieldOf 0 .octetString k a.keyIdentifier
  issuer : FieldOf 1 .sequence i a.issuer
  serial : FieldOf 2 .integer n a.serial

namespace ReadFrom

variable {k i n : Option Tagged} (h : a.ReadFrom k i n)

include h

theorem ascending : Ascending (k.toList ++ (i.toList ++ n.toList)) := by
  obtain ⟨hk, hi, hn⟩ := h
  have hone {o : Option Tagged} : Ascending o.toList := by cases o <;> simp [Ascending]
  have hlt {x y : UInt32} (hxy : x < y) {t u : Tagged} (ht : t.tag = .context x)
      (hu : u.tag = .context y) : t.tag.number < u.tag.number := by
    rw [ht, hu]
    exact hxy
  refine List.pairwise_append.2 ⟨hone, ?_, fun t ht u hu => ?_⟩
  · refine List.pairwise_append.2 ⟨hone, hone, fun t ht u hu => ?_⟩
    exact hlt (by decide) (hi.tag_eq t ht) (hn.tag_eq u hu)
  · rcases List.mem_append.1 hu with hu | hu
    · exact hlt (by decide) (hk.tag_eq t ht) (hi.tag_eq u hu)
    · exact hlt (by decide) (hk.tag_eq t ht) (hn.tag_eq u hu)

theorem reflects : a.Reflects (k.toList ++ (i.toList ++ n.toList)) := by
  obtain ⟨hk, hi, hn⟩ := h
  refine ⟨fun s => ?_, fun vs => ?_, fun m => ?_⟩
  · refine hk.eq_some_iff takes_octetString (fun _ => rfl) (List.forall_mem_nil _) ?_
    exact List.forall_mem_append.2 ⟨hi.tag_ne (by decide), hn.tag_ne (by decide)⟩
  · exact hi.eq_some_iff takes_sequence (fun _ => rfl) (hk.tag_ne (by decide))
      (hn.tag_ne (by decide))
  · rw [← List.append_assoc, ← List.append_nil n.toList]
    refine hn.eq_some_iff takes_integer (fun _ => rfl) ?_ (List.forall_mem_nil _)
    exact List.forall_mem_append.2 ⟨hk.tag_ne (by decide), hi.tag_ne (by decide)⟩

theorem exists_rebuilds :
    ∃ us, List.Forall₂ Rebuilds (k.toList ++ (i.toList ++ n.toList)) us ∧
      a.toValue = .sequence us := by
  refine ⟨_, ?_, rfl⟩
  rw [List.append_assoc]
  refine List.rel_append (h.keyIdentifier.forall₂_rebuilds fun _ _ => .keyIdentifier) ?_
  refine List.rel_append (h.issuer.forall₂_rebuilds fun _ _ => .issuer) ?_
  exact h.serial.forall₂_rebuilds fun _ _ => .serial

/-- The tags ascend, so a field that is absent finds a later one in its place. -/
theorem parse_eq : fields.parse ((k.toList ++ (i.toList ++ n.toList)).map .tagged) = .ok a := by
  obtain ⟨hk, hi, hn⟩ := h
  rw [List.map_append, List.map_append, ← List.append_nil (n.toList.map _)]
  apply FieldParser.parse_of_yields
  refine (yields_field takes_octetString (fun _ => rfl) hk ?_).bind
    ((yields_field takes_sequence (fun _ => rfl) hi ?_).bind
      ((yields_field takes_integer (fun _ => rfl) hn (List.forall_mem_nil _)).bind
        (FieldParser.yields_pure _ [])))
  · simp only [List.append_nil, List.forall_mem_append, List.forall_mem_map]
    exact ⟨hi.tag_ne (by decide), hn.tag_ne (by decide)⟩
  · simp only [List.append_nil, List.forall_mem_map]
    exact hn.tag_ne (by decide)

end ReadFrom

theorem ofValue_sequence_iff :
    schema.ofValue (.sequence vs) = .ok a ↔ ∃ k i n : Option Tagged, a.ReadFrom k i n ∧
      vs = (k.toList ++ (i.toList ++ n.toList)).map .tagged := by
  constructor
  · intro h
    obtain ⟨k', us, hk, h⟩ := (FieldParser.leaves_of_parse h).of_bind
    obtain ⟨i', ws, hi, h⟩ := h.of_bind
    obtain ⟨n', xs, hn, h⟩ := h.of_bind
    obtain ⟨ha, rfl⟩ := h.pure_eq
    cases ha
    obtain ⟨k, hko, rfl⟩ := exists_of_field_leaves takes_octetString (fun _ => rfl) hk
    obtain ⟨i, hio, rfl⟩ := exists_of_field_leaves takes_sequence (fun _ => rfl) hi
    obtain ⟨n, hno, rfl⟩ := exists_of_field_leaves takes_integer (fun _ => rfl) hn
    refine ⟨k, i, n, ⟨hko, hio, hno⟩, ?_⟩
    rw [List.map_append, List.map_append, List.append_nil]
  · rintro ⟨k, i, n, h, rfl⟩
    exact h.parse_eq

theorem Ascending.exists_split (h : Ascending ts) {m : UInt32} (hm : ∀ t ∈ ts, m ≤ t.tag.number) :
    ∃ (o : Option Tagged) (us : List Tagged), ts = o.toList ++ us ∧ Ascending us ∧
      (∀ t ∈ o, t.tag.number = m) ∧ ∀ t ∈ us, m < t.tag.number := by
  cases ts with
  | nil => exact ⟨none, [], rfl, h, by simp, by simp⟩
  | cons t us =>
    obtain ⟨hus, hasc⟩ := List.pairwise_cons.1 h
    by_cases ht : t.tag.number = m
    · refine ⟨some t, us, rfl, hasc, by simpa using ht, fun u hu => ?_⟩
      exact ht ▸ hus u hu
    · have htm : m < t.tag.number := UInt32.lt_of_le_of_ne (hm t List.mem_cons_self) (Ne.symm ht)
      refine ⟨none, t :: us, rfl, h, by simp, List.forall_mem_cons.2 ⟨htm, fun u hu => ?_⟩⟩
      exact UInt32.lt_trans htm (hus u hu)

theorem exists_reflects (h : schema.ofValue (.sequence vs) = .ok a) :
    ∃ ts us, vs = ts.map .tagged ∧ Ascending ts ∧ a.Reflects ts ∧ List.Forall₂ Rebuilds ts us ∧
      a.toValue = .sequence us := by
  obtain ⟨k, i, n, hr, rfl⟩ := ofValue_sequence_iff.1 h
  obtain ⟨us, hus, ha⟩ := hr.exists_rebuilds
  exact ⟨_, us, rfl, hr.ascending, hr.reflects, hus, ha⟩

theorem exists_ofValue_sequence_iff :
    (∃ a, schema.ofValue (.sequence vs) = .ok a) ↔
      ∃ ts, vs = ts.map .tagged ∧ Ascending ts ∧ ∀ t ∈ ts, ∃ v, Rebuilds t v := by
  constructor
  · rintro ⟨a, ha⟩
    obtain ⟨ts, us, hvs, hasc, -, hus, -⟩ := exists_reflects ha
    exact ⟨ts, hvs, hasc, forall_mem_of_forall₂_left (hus.imp fun t v h => ⟨v, h⟩)⟩
  · rintro ⟨ts, rfl, hasc, hts⟩
    obtain ⟨k, ts, rfl, hasc, hk, hlt⟩ := hasc.exists_split (m := 0) fun _ _ => UInt32.zero_le
    obtain ⟨i, ts, rfl, hasc, hi, hlt⟩ := hasc.exists_split (m := 1) fun t ht => hlt t ht
    obtain ⟨n, ts, rfl, hasc, hn, hlt⟩ := hasc.exists_split (m := 2) fun t ht => hlt t ht
    simp only [List.forall_mem_append, Option.mem_toList] at hts
    obtain ⟨hkts, hits, hnts, hts⟩ := hts
    obtain ⟨k', hk⟩ := exists_fieldOf hkts hk fun _ _ h => h.exists_octetString
    obtain ⟨i', hi⟩ := exists_fieldOf hits hi fun _ _ h => h.exists_sequence
    obtain ⟨n', hn⟩ := exists_fieldOf hnts hn fun _ _ h => h.exists_integer
    have hnil : ts = [] := by
      refine List.eq_nil_iff_forall_not_mem.2 fun t ht => ?_
      obtain ⟨v, hv⟩ := hts t ht
      exact absurd (hlt t ht) (UInt32.not_lt.2 hv.number_le)
    refine ⟨⟨k', i', n'⟩, ofValue_sequence_iff.2 ⟨k, i, n, ⟨hk, hi, hn⟩, ?_⟩⟩
    rw [hnil, List.append_nil]

end AuthorityKeyIdentifier

/-! ## All parts -/

def keyAndSerial : List Tagged :=
  [.raw (.context 0) .ber (.primitive [1, 2, 3]), .raw (.context 2) .ber (.primitive [5])]

end Certificate

end Tlv
