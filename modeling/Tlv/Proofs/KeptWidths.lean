import Tlv.Proofs.Encoded
import Tlv.Proofs.LengthOctets

/-! # Kept widths

A unit has its length before its contents, so a writer that goes over an encoding once has to know
how many octets the contents will be. Each constructed unit keeps that number in a word, taken when
the unit is put together from the widths of its elements and never again, although the unit may get
another tag later. Every kept number stays that of the octets which are written: a unit counts what
stands between its length and the closing marker, sorting does not change the sum of the widths, and
the widths that a new tag changes are asked for only when the unit becomes an element of another.
-/

namespace Tlv

namespace Word

variable {w m n : Nat} {a : BitVec w}

def ofNat? (w n : Nat) : Option (BitVec w) :=
  if n < 2 ^ w then some (BitVec.ofNat w n) else none

def sum? (a b : Option (BitVec w)) : Option (BitVec w) := do
  add? (← a) (← b)

theorem ofNat?_eq_some_iff : ofNat? w n = some a ↔ a.toNat = n := by
  rw [ofNat?]
  split <;> rename_i h
  · rw [Option.some_inj, ← BitVec.toNat_inj, BitVec.toNat_ofNat, Nat.mod_eq_of_lt h, eq_comm]
  · have := a.isLt
    simp
    omega

@[simp] theorem ofNat?_toNat (a : BitVec w) : ofNat? w a.toNat = some a :=
  ofNat?_eq_some_iff.2 rfl

theorem ofNat?_eq_none_iff : ofNat? w n = none ↔ 2 ^ w ≤ n := by
  simp [ofNat?]

theorem exists_ofNat? (h : n < 2 ^ w) : ∃ a, ofNat? w n = some a ∧ a.toNat = n := by
  obtain ⟨a, ha⟩ := exists_toNat_eq h
  exact ⟨a, ofNat?_eq_some_iff.2 ha, ha⟩

@[simp] theorem sum?_ofNat? (m n : Nat) : sum? (ofNat? w m) (ofNat? w n) = ofNat? w (m + n) := by
  ext c
  simp only [sum?, Option.bind_eq_bind, Option.bind_eq_some_iff, ofNat?_eq_some_iff,
    add?_eq_some_iff]
  constructor
  · rintro ⟨a, rfl, b, rfl, hc⟩
    exact hc
  · intro hc
    have hlt := c.isLt
    obtain ⟨a, rfl⟩ := exists_toNat_eq (show m < 2 ^ w by omega)
    obtain ⟨b, rfl⟩ := exists_toNat_eq (show n < 2 ^ w by omega)
    exact ⟨a, rfl, b, rfl, hc⟩

end Word

open Word

/-! ## Shortest lengths -/

namespace Length

variable {rule : Rule} {n : Nat} {s : Octets}

theorem spells_octets (rule : Rule) (h : n < UInt64.size) : Spells rule n (octets n) :=
  ⟨h, _, LengthForm.shortest_ne_indefinite n, LengthForm.admits_shortest rule h,
    (LengthForm.octets_shortest n).symm⟩

theorem length_octets_le_of_spells (h : Spells rule n s) : (octets n).length ≤ s.length := by
  obtain ⟨-, form, hne, hadm, rfl⟩ := h
  cases form with
  | short =>
    have hn : n < 128 := hadm
    simp [octets, hn, LengthForm.octets]
  | long k =>
    obtain ⟨h1, -, hlt, -⟩ := hadm
    have hle := BigEndian.length_octets_le hlt
    rw [octets]
    split
    · simp [LengthForm.octets]
    · simpa [LengthForm.octets] using hle
  | indefinite => exact absurd rfl hne

end Length

namespace Encoding

variable (e : Encoding)

theorem contents_length_le : e.contents.length ≤ e.octets.length := by
  rw [octets_eq_frame]
  exact (length_lt_frame _ _ _).le

theorem contentsWidth_eq : e.contentsWidth = e.contents.length := by
  cases e with
  | primitive _ _ => rfl
  | constructed _ _ es => exact (length_joined es).symm

end Encoding

/-! ## Encodings with widths -/

/-- An encoding whose constructed units keep the number of octets of their contents. -/
inductive Measured where
  | primitive (identifier : Identifier) (contents : Octets)
  | constructed (identifier : Identifier) (indefinite : Bool) (kept : BitVec 64)
      (elements : List Measured)

namespace Measured

def identifier : Measured → Identifier
  | primitive i _ | constructed i _ _ _ => i

def isOpen : Measured → Bool
  | primitive _ _ => false
  | constructed _ indefinite _ _ => indefinite

/-- The number of octets of the contents. Elements are not gone over. -/
def contentsWidth? : Measured → Option (BitVec 64)
  | primitive _ s => ofNat? 64 s.length
  | constructed _ _ kept _ => some kept

/-- The width of a frame, summed up in the order in which it is written. -/
def framedWidth? (i : Identifier) (indefinite : Bool) (count : BitVec 64) :
    Option (BitVec 64) :=
  if indefinite then
    sum? (sum? (sum? (ofNat? 64 i.width) (some 1)) (some count)) (some 2)
  else sum? (sum? (ofNat? 64 i.width) (ofNat? 64 (Length.width count.toNat))) (some count)

def width? (m : Measured) : Option (BitVec 64) := do
  framedWidth? m.identifier m.isOpen (← m.contentsWidth?)

def widths? (ms : List Measured) : Option (BitVec 64) :=
  ms.foldl (fun sum m => sum? sum m.width?) (some 0)

def announced (i : Identifier) (indefinite : Bool) (count : Nat) (contents : Octets) : Octets :=
  i.octets ++
    if indefinite then Length.indefiniteOctet :: (contents ++ Encoding.endMarker)
    else Length.octets count ++ contents

mutual

/-- The octets of the unit. The announced length is the one that was kept. -/
def octets : Measured → Octets
  | primitive i s => announced i false s.length s
  | constructed i indefinite kept ms => announced i indefinite kept.toNat (joined ms)

def joined : List Measured → Octets
  | [] => []
  | m :: ms => m.octets ++ joined ms

end

def contents : Measured → Octets
  | primitive _ s => s
  | constructed _ _ _ ms => joined ms

/-! ### Construction -/

def ofContents (i : Identifier) (s : Octets) : Measured :=
  primitive { i with constructed := false } s

def ofElements? (i : Identifier) (indefinite : Bool) (ms : List Measured) : Option Measured := do
  return constructed { i with constructed := true } indefinite (← widths? ms) ms

def ofSorted? (i : Identifier) (indefinite : Bool) (ms : List Measured) : Option Measured :=
  ofElements? i indefinite (ms.mergeSort fun a b => Octets.le a.octets b.octets)

def withTag (tag : Tag) : Measured → Measured
  | primitive i s => primitive ⟨tag, i.constructed⟩ s
  | constructed i indefinite kept ms => constructed ⟨tag, i.constructed⟩ indefinite kept ms

@[simp] theorem identifier_withTag (tag : Tag) (m : Measured) :
    (m.withTag tag).identifier = ⟨tag, m.identifier.constructed⟩ := by
  cases m <;> rfl

mutual

def encoding : Measured → Encoding
  | primitive i s => .primitive i.tag s
  | constructed i indefinite _ ms => .constructed i.tag indefinite (encodings ms)

def encodings : List Measured → List Encoding
  | [] => []
  | m :: ms => m.encoding :: encodings ms

end

theorem encodings_eq_map (ms : List Measured) : encodings ms = ms.map encoding := by
  induction ms with
  | nil => rfl
  | cons m ms ih => rw [encodings, ih, List.map_cons]

mutual

/-- Identifiers tell the forms of their units, and kept numbers count the octets of the contents. -/
def Exact : Measured → Prop
  | primitive i _ => i.constructed = false
  | constructed i _ kept ms =>
    i.constructed = true ∧ kept.toNat = (joined ms).length ∧ AllExact ms

def AllExact : List Measured → Prop
  | [] => True
  | m :: ms => m.Exact ∧ AllExact ms

end

variable {m : Measured} {ms : List Measured}

theorem allExact_iff : AllExact ms ↔ ∀ m ∈ ms, m.Exact := by
  induction ms with
  | nil => simp [AllExact]
  | cons m ms ih => simp [AllExact, ih]

/-! ### What is written -/

mutual

theorem octets_encoding : ∀ {m : Measured}, m.Exact → m.encoding.octets = m.octets
  | primitive i s, h => by
    have hi : (⟨i.tag, false⟩ : Identifier) = i := congrArg (Identifier.mk i.tag) h.symm
    simp only [encoding, Encoding.octets, octets, Encoding.frame, announced, hi]
  | constructed i indefinite kept ms, ⟨h, hkept, hms⟩ => by
    have hi : (⟨i.tag, true⟩ : Identifier) = i := congrArg (Identifier.mk i.tag) h.symm
    simp only [encoding, Encoding.octets, octets, Encoding.frame, announced, hi,
      joined_encodings hms, hkept]

theorem joined_encodings : ∀ {ms : List Measured}, AllExact ms →
    Encoding.joined (encodings ms) = joined ms
  | [], _ => rfl
  | _ :: _, ⟨hm, hms⟩ => by
    simp only [encodings, Encoding.joined, joined, octets_encoding hm, joined_encodings hms]

end

theorem contents_encoding (h : m.Exact) : m.encoding.contents = m.contents := by
  cases m with
  | primitive _ _ => rfl
  | constructed _ _ _ ms => exact joined_encodings h.2.2

theorem identifier_encoding (h : m.Exact) : m.encoding.identifier = m.identifier := by
  cases m with
  | primitive i _ => exact congrArg (Identifier.mk i.tag) h.symm
  | constructed i _ _ _ => exact congrArg (Identifier.mk i.tag) h.1.symm

theorem isOpen_encoding (m : Measured) : m.encoding.isOpen = m.isOpen := by
  cases m <;> rfl

theorem octets_eq_announced (h : m.Exact) :
    m.octets = announced m.identifier m.isOpen m.contents.length m.contents := by
  rw [← octets_encoding h, Encoding.octets_eq_frame, identifier_encoding h, isOpen_encoding,
    contents_encoding h]
  rfl

/-! ### What is counted -/

theorem framedWidth?_eq (i : Identifier) (indefinite : Bool) (count : BitVec 64) :
    framedWidth? i indefinite count =
      ofNat? 64 (Encoding.framedWidth i indefinite count.toNat) := by
  have h1 : some (1 : BitVec 64) = ofNat? 64 1 := rfl
  have h2 : some (2 : BitVec 64) = ofNat? 64 2 := rfl
  have hcount : some count = ofNat? 64 count.toNat := (ofNat?_toNat count).symm
  cases indefinite <;>
    simp only [framedWidth?, Encoding.framedWidth, h1, h2, hcount, sum?_ofNat?, if_true,
      Bool.false_eq_true, if_false, Nat.add_assoc]

theorem contentsWidth?_eq (h : m.Exact) : m.contentsWidth? = ofNat? 64 m.contents.length := by
  cases m with
  | primitive _ _ => rfl
  | constructed _ _ kept _ => exact (ofNat?_eq_some_iff.2 h.2.1).symm

/-- A width is missing exactly if it does not fit a word. -/
theorem width?_eq (h : m.Exact) : m.width? = ofNat? 64 m.octets.length := by
  have hlen : m.octets.length =
      Encoding.framedWidth m.identifier m.isOpen m.contents.length := by
    rw [octets_eq_announced h]
    exact Encoding.length_frame _ _ _
  rw [width?, contentsWidth?_eq h]
  rcases Nat.lt_or_ge m.contents.length (2 ^ 64) with hfits | hfits
  · obtain ⟨count, hcount, hc⟩ := exists_ofNat? hfits
    simp [hcount, framedWidth?_eq, hc, hlen]
  · have hle := m.encoding.contents_length_le
    rw [contents_encoding h, octets_encoding h] at hle
    rw [ofNat?_eq_none_iff.2 hfits, ofNat?_eq_none_iff.2 (hfits.trans hle)]
    rfl

theorem foldl_width? (h : AllExact ms) (n : Nat) :
    ms.foldl (fun sum m => sum? sum m.width?) (ofNat? 64 n) =
      ofNat? 64 (n + (joined ms).length) := by
  induction ms generalizing n with
  | nil => rfl
  | cons m ms ih =>
    simp only [List.foldl_cons, width?_eq h.1, sum?_ofNat?, ih h.2, joined, List.length_append,
      Nat.add_assoc]

theorem widths?_eq (h : AllExact ms) : widths? ms = ofNat? 64 (joined ms).length := by
  simpa [widths?, ofNat?] using foldl_width? h 0

/-! ### Steps -/

theorem exact_ofContents (i : Identifier) (s : Octets) : (ofContents i s).Exact := rfl

theorem exists_ofElements? (i : Identifier) (indefinite : Bool) (h : AllExact ms)
    (hfits : (joined ms).length < 2 ^ 64) :
    ∃ m, ofElements? i indefinite ms = some m ∧ m.Exact ∧
      m.encoding = .constructed i.tag indefinite (encodings ms) := by
  obtain ⟨kept, hkept, hlen⟩ := exists_ofNat? hfits
  refine ⟨constructed ⟨i.tag, true⟩ indefinite kept ms, ?_, ⟨rfl, hlen, h⟩, rfl⟩
  simp [ofElements?, widths?_eq h, hkept]

theorem encodings_mergeSort (h : AllExact ms) :
    encodings (ms.mergeSort fun a b => Octets.le a.octets b.octets) =
      (encodings ms).mergeSort fun a b => Octets.le a.octets b.octets := by
  rw [encodings_eq_map, encodings_eq_map]
  refine List.map_mergeSort fun a ha b hb => ?_
  rw [octets_encoding (allExact_iff.1 h a ha), octets_encoding (allExact_iff.1 h b hb)]

theorem exists_ofSorted? (i : Identifier) (indefinite : Bool) (h : AllExact ms)
    (hfits : (Encoding.sorted i.tag indefinite (encodings ms)).contents.length < 2 ^ 64) :
    ∃ m, ofSorted? i indefinite ms = some m ∧ m.Exact ∧
      m.encoding = .sorted i.tag indefinite (encodings ms) := by
  have hsorted : AllExact (ms.mergeSort fun a b => Octets.le a.octets b.octets) :=
    allExact_iff.2 fun m hm => allExact_iff.1 h m (List.mem_mergeSort.1 hm)
  rw [Encoding.sorted, ← encodings_mergeSort h] at hfits ⊢
  rw [Encoding.contents, joined_encodings hsorted] at hfits
  exact exists_ofElements? i indefinite hsorted hfits

theorem Exact.withTag (tag : Tag) (h : m.Exact) : (m.withTag tag).Exact := by
  cases m with
  | primitive _ _ => exact h
  | constructed _ _ _ _ => exact h

theorem encoding_withTag (tag : Tag) (m : Measured) :
    (m.withTag tag).encoding = m.encoding.withTag tag := by
  cases m <;> rfl

end Measured

/-! ## Plans -/

/-- How an encoding is put together. Identifiers come with any flag, whatever the form of the unit,
and a unit may get another tag at any time. -/
inductive Plan where
  | primitive (identifier : Identifier) (contents : Octets)
  | constructed (identifier : Identifier) (indefinite : Bool) (elements : List Plan)
  | sorted (identifier : Identifier) (indefinite : Bool) (elements : List Plan)
  | withTag (tag : Tag) (plan : Plan)

namespace Plan

mutual

/-- The encoding that comes of it if widths are not kept. -/
def encoding : Plan → Encoding
  | primitive i s => .primitive i.tag s
  | constructed i indefinite ps => .constructed i.tag indefinite (encodings ps)
  | sorted i indefinite ps => .sorted i.tag indefinite (encodings ps)
  | withTag tag p => p.encoding.withTag tag

def encodings : List Plan → List Encoding
  | [] => []
  | p :: ps => p.encoding :: encodings ps

end

mutual

/-- The encoding with the widths that are kept, unless one of them does not fit. -/
def measured? : Plan → Option Measured
  | primitive i s => some (.ofContents i s)
  | constructed i indefinite ps => do Measured.ofElements? i indefinite (← measureds? ps)
  | sorted i indefinite ps => do Measured.ofSorted? i indefinite (← measureds? ps)
  | withTag tag p => do return (← p.measured?).withTag tag

def measureds? : List Plan → Option (List Measured)
  | [] => some []
  | p :: ps => do return (← p.measured?) :: (← measureds? ps)

end

theorem length_contents_sorted (tag : Tag) (indefinite : Bool) (es : List Encoding) :
    (Encoding.sorted tag indefinite es).contents.length = (Encoding.joined es).length := by
  simp only [Encoding.sorted, Encoding.contents, Encoding.joined_eq_flatMap]
  exact ((List.mergeSort_perm es _).flatMap_right _).length_eq

mutual

/-- As long as the contents fit, all widths below them do. -/
theorem exists_measured? : ∀ p : Plan, p.encoding.contents.length < 2 ^ 64 →
    ∃ m, p.measured? = some m ∧ m.Exact ∧ m.encoding = p.encoding
  | primitive i s, _ => ⟨_, rfl, Measured.exact_ofContents i s, rfl⟩
  | constructed i indefinite ps, h => by
    obtain ⟨ms, hms, hexact, henc⟩ := exists_measureds? ps h
    have hfits : (Measured.joined ms).length < 2 ^ 64 := by
      rw [← Measured.joined_encodings hexact, henc]
      exact h
    obtain ⟨m, hm, hmexact, hmenc⟩ := Measured.exists_ofElements? i indefinite hexact hfits
    exact ⟨m, by simp [measured?, hms, hm], hmexact, by rw [hmenc, henc, encoding]⟩
  | sorted i indefinite ps, h => by
    obtain ⟨ms, hms, hexact, henc⟩ := exists_measureds? ps (length_contents_sorted _ _ _ ▸ h)
    obtain ⟨m, hm, hmexact, hmenc⟩ := Measured.exists_ofSorted? i indefinite hexact (henc ▸ h)
    exact ⟨m, by simp [measured?, hms, hm], hmexact, by rw [hmenc, henc, encoding]⟩
  | withTag tag p, h => by
    rw [encoding, Encoding.contents_withTag] at h
    obtain ⟨m, hm, hexact, henc⟩ := exists_measured? p h
    refine ⟨m.withTag tag, by simp [measured?, hm], hexact.withTag tag, ?_⟩
    rw [Measured.encoding_withTag, henc, encoding]

theorem exists_measureds? : ∀ ps : List Plan, (Encoding.joined (encodings ps)).length < 2 ^ 64 →
    ∃ ms, measureds? ps = some ms ∧ Measured.AllExact ms ∧ Measured.encodings ms = encodings ps
  | [], _ => ⟨[], rfl, trivial, rfl⟩
  | p :: ps, h => by
    rw [encodings, Encoding.joined, List.length_append] at h
    have hle := p.encoding.contents_length_le
    obtain ⟨m, hm, hexact, henc⟩ := exists_measured? p (by omega)
    obtain ⟨ms, hms, hexacts, hencs⟩ := exists_measureds? ps (by omega)
    refine ⟨m :: ms, by simp [measureds?, hm, hms], ⟨hexact, hexacts⟩, ?_⟩
    rw [Measured.encodings, henc, hencs, encodings]

end

end Plan

mutual

def Value.plan (rule : Rule) : Value → Plan
  | .boolean b => .primitive ⟨UniversalType.boolean.tag, false⟩ [if b then 0xFF else 0x00]
  | .integer n => .primitive ⟨UniversalType.integer.tag, false⟩ n.octets
  | .bitString b => .primitive ⟨UniversalType.bitString.tag, false⟩ (b.contentsUnder rule)
  | .octetString s => .primitive ⟨UniversalType.octetString.tag, false⟩ s
  | .null => .primitive ⟨UniversalType.null.tag, false⟩ []
  | .oid id => .primitive ⟨UniversalType.oid.tag, false⟩ id.octets
  | .enumerated n => .primitive ⟨UniversalType.enumerated.tag, false⟩ n.octets
  | .string s => .primitive ⟨(UniversalType.string s.kind).tag, false⟩ s.octets
  | .sequence vs =>
    .constructed ⟨UniversalType.sequence.tag, true⟩ rule.indefiniteLengths (Value.plans rule vs)
  | .set vs =>
    if rule.sortedSets then .sorted ⟨UniversalType.set.tag, true⟩ false (Value.plans rule vs)
    else .constructed ⟨UniversalType.set.tag, true⟩ rule.indefiniteLengths (Value.plans rule vs)
  | .tagged t => t.plan rule
  | .unknown n c => c.plan rule ⟨.universal n.number, c.isConstructed⟩

def Tagged.plan (rule : Rule) : Tagged → Plan
  | .explicit tag base => .constructed ⟨tag, true⟩ rule.indefiniteLengths [base.plan rule]
  | .implicit tag base => .withTag tag (base.plan rule)
  | .raw tag _ c => c.plan rule ⟨tag, c.isConstructed⟩

def Contents.plan (rule : Rule) (i : Identifier) : Contents → Plan
  | .primitive s => .primitive i s
  | .constructed vs => .constructed i rule.indefiniteLengths (Value.plans rule vs)

def Value.plans (rule : Rule) : List Value → List Plan
  | [] => []
  | v :: vs => v.plan rule :: Value.plans rule vs

end

section

variable (rule : Rule)

mutual

theorem Value.encoding_plan : ∀ v : Value, (v.plan rule).encoding = v.encoding rule
  | .sequence vs => by
    rw [Value.plan, Plan.encoding, Value.encodings_plans vs, Value.encoding]
  | .set vs => by
    rw [Value.plan, Value.encoding]
    split <;> rw [Plan.encoding, Value.encodings_plans vs]
  | .tagged t => Tagged.encoding_plan t
  | .unknown n c => Contents.encoding_plan c _
  | .boolean _ | .integer _ | .bitString _ | .octetString _ | .null | .oid _ | .enumerated _
  | .string _ => rfl

theorem Tagged.encoding_plan : ∀ t : Tagged, (t.plan rule).encoding = t.encoding rule
  | .explicit _ base => by
    simp only [Tagged.plan, Plan.encoding, Plan.encodings, Value.encoding_plan base,
      Tagged.encoding]
  | .implicit _ base => by
    rw [Tagged.plan, Plan.encoding, Value.encoding_plan base, Tagged.encoding]
  | .raw _ _ c => Contents.encoding_plan c _

theorem Contents.encoding_plan : ∀ (c : Contents) (i : Identifier),
    (c.plan rule i).encoding = c.encoding rule i.tag
  | .primitive _, _ => rfl
  | .constructed vs, _ => by
    rw [Contents.plan, Plan.encoding, Value.encodings_plans vs, Contents.encoding]

theorem Value.encodings_plans : ∀ vs : List Value,
    Plan.encodings (Value.plans rule vs) = Value.encodings rule vs
  | [] => rfl
  | v :: vs => by
    rw [Value.plans, Plan.encodings, Value.encoding_plan v, Value.encodings_plans vs,
      Value.encodings]

end

end

/-! ## Main result -/

namespace Plan

theorem exists_widths (p : Plan) (h : p.encoding.octets.length < 2 ^ 64) :
    ∃ m count width, p.measured? = some m ∧
      (m.contentsWidth? = some count ∧ count.toNat = m.contents.length) ∧
      (m.width? = some width ∧ width.toNat = m.octets.length) ∧
      (m.octets = m.identifier.octets ++
        if m.isOpen then Length.indefiniteOctet :: (m.contents ++ Encoding.endMarker)
        else Length.octets count.toNat ++ m.contents) ∧
      m.octets = p.encoding.octets ∧ m.contents = p.encoding.contents ∧
      m.identifier = p.encoding.identifier ∧ m.isOpen = p.encoding.isOpen := by
  have hle := p.encoding.contents_length_le
  obtain ⟨m, hm, hexact, henc⟩ := p.exists_measured? (by omega)
  simp only [← henc, Measured.octets_encoding hexact, Measured.contents_encoding hexact,
    Measured.identifier_encoding hexact, Measured.isOpen_encoding] at h hle ⊢
  obtain ⟨count, hcount, hc⟩ := exists_ofNat? (Nat.lt_of_le_of_lt hle h)
  obtain ⟨width, hwidth, hw⟩ := exists_ofNat? h
  refine ⟨m, count, width, hm, ⟨?_, hc⟩, ⟨?_, hw⟩, ?_, rfl, rfl, rfl, rfl⟩
  · rw [Measured.contentsWidth?_eq hexact, hcount]
  · rw [Measured.width?_eq hexact, hwidth]
  · rw [hc]
    exact Measured.octets_eq_announced hexact

/-- Widths are exact. Put together in any way, with any tags, sorted or not, closed or left open at
each unit, an encoding that fits 64 bits keeps the number of octets of its contents and gives the
number of all its octets, which are the identifier, the shortest form of the kept length or the
octet of a length left open, the contents, and the closing marker if there is one to close. The same
octets are written and counted when all widths are found anew. Values of every kind are encoded in
this way under each rule. -/
theorem exact_widths :
    (∀ p : Plan, p.encoding.octets.length < 2 ^ 64 → ∃ m count width, p.measured? = some m ∧
      (m.contentsWidth? = some count ∧ count.toNat = m.contents.length) ∧
      (m.width? = some width ∧ width.toNat = m.octets.length) ∧
      (m.octets = m.identifier.octets ++
        if m.isOpen then Length.indefiniteOctet :: (m.contents ++ Encoding.endMarker)
        else Length.octets count.toNat ++ m.contents) ∧
      m.octets = p.encoding.octets ∧ m.contents = p.encoding.contents ∧
      m.identifier = p.encoding.identifier ∧ m.isOpen = p.encoding.isOpen) ∧
    (∀ e : Encoding, e.width = e.octets.length ∧ e.contentsWidth = e.contents.length ∧
      e.octets = e.identifier.octets ++
        if e.isOpen then Length.indefiniteOctet :: (e.contents ++ Encoding.endMarker)
        else Length.octets e.contents.length ++ e.contents) ∧
    (∀ rule n, (n < UInt64.size → Length.Spells rule n (Length.octets n)) ∧
      ∀ s, Length.Spells rule n s → (Length.octets n).length ≤ s.length) ∧
    ∀ rule (v : Value), v.width rule = (v.octets rule).length ∧
      ((v.octets rule).length < 2 ^ 64 → ∃ m width, (v.plan rule).measured? = some m ∧
        m.width? = some width ∧ m.octets = v.octets rule ∧
        width.toNat = (v.octets rule).length) := by
  refine ⟨exists_widths, fun e => ⟨e.length_octets.symm, e.contentsWidth_eq, e.octets_eq_frame⟩,
    fun rule n => ⟨Length.spells_octets rule, fun s => Length.length_octets_le_of_spells⟩,
    fun rule v => ⟨(v.length_octets rule).symm, fun hfits => ?_⟩⟩
  rw [Value.octets, ← Value.encoding_plan] at hfits ⊢
  obtain ⟨m, -, width, hm, -, ⟨hwidth, hw⟩, -, hoctets, -⟩ := (v.plan rule).exists_widths hfits
  exact ⟨m, width, hm, hwidth, hoctets, hoctets ▸ hw⟩

/-- An open SET of two units that have got other tags: a longer one, and one whose number takes
fewer octets than before. -/
def retagged : Plan :=
  .sorted ⟨UniversalType.set.tag, false⟩ true
    [.withTag ⟨.context, 200⟩
      (.constructed ⟨UniversalType.sequence.tag, true⟩ false
        [.primitive ⟨UniversalType.null.tag, true⟩ []]),
     .withTag ⟨.context, 1⟩ (.primitive ⟨⟨.application, 70000⟩, false⟩ [0x05])]

theorem exact_widths_retagged :
    retagged.encoding.octets.length < 2 ^ 64 ∧
    (∃ m width, retagged.measured? = some m ∧ m.width? = some width ∧ width.toNat = 13 ∧
      m.octets = [0x31, 0x80, 0x81, 0x01, 0x05, 0xBF, 0x81, 0x48, 0x02, 0x05, 0x00, 0x00, 0x00]) ∧
    300 < UInt64.size ∧ Length.Spells .dl 300 [0x83, 0x00, 0x01, 0x2C] ∧
    (Length.octets 300).length ≤ 4 ∧ Length.Spells .dl 300 (Length.octets 300) ∧
    (Value.null.octets .ber).length < 2 ^ 64 ∧
    ∃ m width, (Value.null.plan .ber).measured? = some m ∧ m.width? = some width ∧
      width.toNat = (Value.null.octets .ber).length := by
  have hoctets : retagged.encoding.octets =
      [0x31, 0x80, 0x81, 0x01, 0x05, 0xBF, 0x81, 0x48, 0x02, 0x05, 0x00, 0x00, 0x00] := by cbv
  have hfits : retagged.encoding.octets.length < 2 ^ 64 := by
    rw [hoctets]
    decide
  have hspells : Length.Spells .dl 300 [0x83, 0x00, 0x01, 0x2C] :=
    ⟨by decide, .long 3, by simp, by decide, rfl⟩
  have hnull : (Value.null.octets .ber).length < 2 ^ 64 := by decide
  obtain ⟨hplans, -, hlengths, hvalues⟩ := exact_widths
  obtain ⟨m, -, width, hm, -, ⟨hwidth, hw⟩, -, heq, -⟩ := hplans retagged hfits
  obtain ⟨n, nullWidth, hn, hnw, -, hlen⟩ := (hvalues .ber .null).2 hnull
  rw [heq, hoctets] at hw
  exact ⟨hfits, ⟨m, width, hm, hwidth, hw, heq.trans hoctets⟩, by decide, hspells,
    (hlengths .dl 300).2 _ hspells, (hlengths .dl 300).1 (by decide), hnull, n, nullWidth, hn, hnw,
    hlen⟩

end Plan

end Tlv
