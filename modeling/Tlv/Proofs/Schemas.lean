import Tlv.Proofs.Contents
import Tlv.Schema

/-! # Schemas as views

The schema of a universal type takes the values of that type and no others, and gives what they
hold. So what it reads, as an optional field or out of a tagged object, tells the value it was read
from.
-/

namespace Tlv

namespace Schema

variable {α : Type} {typeName : String} {a : α}

theorem ofValue_ofSequence_eq_ok_iff {parse : List Value → Result α} {v : Value} :
    (ofSequence typeName parse).ofValue v = .ok a ↔ ∃ vs, v = .sequence vs ∧ parse vs = .ok a := by
  cases v <;> simp [ofSequence, wrongType]

theorem ofOctets_eq_ok_iff {c : Schema α} {s : Octets} :
    c.ofOctets s = .ok a ↔ ∃ v, Value.ofBer s = .ok v ∧ c.ofValue v = .ok a := by
  unfold ofOctets
  cases Value.ofBer s <;> simp

end Schema

namespace UniversalSchema

variable {α : Type} {c : UniversalSchema α} {u : UniversalType} {inj : α → Value} {v : Value}
  {a : α}

/-- The schema takes just the values that `inj` makes. -/
structure Takes (c : UniversalSchema α) (u : UniversalType) (inj : α → Value) : Prop where
  number_eq : c.number = u.number
  ofValue_iff : ∀ v a, c.ofValue v = .ok a ↔ v = inj a
  recognizes_iff : ∀ v, c.recognizes v = true ↔ ∃ a, v = inj a

theorem takes_ofView {view : Value → Option α} (h : ∀ v a, view v = some a ↔ v = inj a) :
    Takes (ofView u view) u inj where
  number_eq := rfl
  ofValue_iff v a := by
    rw [← h v a]
    cases hv : view v <;> simp [ofView, Schema.ofView, wrongType, hv]
  recognizes_iff v := by
    simp only [← h v]
    exact Option.isSome_iff_exists

theorem takes_boolean : Takes .boolean .boolean .boolean :=
  takes_ofView fun v a => by cases v <;> simp

theorem takes_integer : Takes .integer .integer .integer :=
  takes_ofView fun v a => by cases v <;> simp

theorem takes_bitString : Takes .bitString .bitString .bitString :=
  takes_ofView fun v a => by cases v <;> simp

theorem takes_octetString : Takes .octetString .octetString .octetString :=
  takes_ofView fun v a => by cases v <;> simp

theorem takes_oid : Takes .oid .oid .oid :=
  takes_ofView fun v a => by cases v <;> simp

theorem takes_sequence : Takes .sequence .sequence .sequence :=
  takes_ofView fun v a => by cases v <;> simp

theorem Takes.optional_eq_some_iff (h : Takes c u inj) :
    c.optional v = .ok (some a) ↔ v = inj a := by
  rw [Schema.optional]
  split
  · rw [except_map_eq_ok_iff, ← h.ofValue_iff]
    simp
  · rename_i hrec
    constructor
    · intro hnone
      cases hnone
    · intro hv
      exact absurd ((h.recognizes_iff v).2 ⟨a, hv⟩) hrec

theorem Takes.ofTagged_iff (h : Takes c u inj) {isExplicit : Bool} {t : Tagged} :
    c.ofTagged isExplicit t = .ok a ↔ t.resolve isExplicit u.number = .ok (inj a) := by
  rw [ofTagged, h.number_eq, except_bind_eq_ok_iff]
  simp only [h.ofValue_iff]
  constructor
  · rintro ⟨_, ht, rfl⟩
    exact ht
  · intro ht
    exact ⟨_, ht, rfl⟩

end UniversalSchema

end Tlv
