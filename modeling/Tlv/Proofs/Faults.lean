import Tlv.Proofs.Subvalues
import Tlv.Tagged.Resolution

/-! # Faults in wire data

Octets that cannot be read are malformed or exceed a limit, and a tagged object that was read and
cannot be resolved is malformed or has another tag inside. Errors that blame the caller do not come
from octets: objects built by a program never occur in what is read, and the constructors of strings
are called for numbers that stand for strings.
-/

namespace Tlv

/-- A failure is a fault of the octets or an exceeded limit. -/
def BlamesInput {α : Type} (x : Except Failure α) : Prop :=
  ∀ f, x = .error f → f.error.kind = .malformedInput ∨ f.error.kind = .limitExceeded

namespace BlamesInput

variable {α β : Type} {x : Except Failure α} {a : α} {f : Failure}

theorem ok (a : α) : BlamesInput (.ok a : Except Failure α) := by
  rintro _ ⟨⟩

theorem malformed (cause : Malformation) (s : Octets) :
    BlamesInput (.error ⟨.malformed cause, s⟩ : Except Failure α) := by
  rintro _ ⟨⟩
  exact .inl rfl

theorem limit (cause : Excess) (s : Octets) :
    BlamesInput (.error ⟨.limit cause, s⟩ : Except Failure α) := by
  rintro _ ⟨⟩
  exact .inr rfl

theorem of_error (h : BlamesInput x) (hx : x = .error f) (s : Octets) :
    BlamesInput (.error ⟨f.error, s⟩ : Except Failure β) := by
  rintro _ ⟨⟩
  exact h f hx

end BlamesInput

/-- No constructor of the table is called for a number that it cannot do with. -/
theorem TypeEntry.kind_of_construct {number : UInt32} {entry : TypeEntry} {rule : Rule}
    {c : Contents} {e : Error} (hentry : ofNumber? number = some entry)
    (h : entry.construct rule c = .error e) : e.kind = .malformedInput := by
  rw [ofNumber?_eq] at hentry
  obtain ⟨u, -, rfl⟩ := Option.map_eq_some_iff.1 hentry
  rw [construct_entry] at h
  cases hc : u.ofContents rule c with
  | error cause =>
    rw [hc] at h
    cases h
    rfl
  | ok v =>
    rw [hc] at h
    cases h

theorem Value.kind_of_construct {tag : Tag} {hn : tag ≠ .endOfContents} {rule : Rule}
    {c : Contents} {e : Error} (h : construct tag hn rule c = .error e) :
    e.kind = .malformedInput := by
  unfold construct at h
  split at h
  · split at h
    · rename_i hentry
      exact TypeEntry.kind_of_construct hentry h
    · cases h
  · cases h

namespace Reader

variable {options : ReaderOptions}

theorem blamesInput_header (s : Octets) : BlamesInput (header options s) := by
  unfold header
  split
  · exact .malformed _ _
  split
  · exact .malformed _ _
  · exact .ok _
  split
  · rename_i e he
    unfold checkLength at he
    split at he
    · cases he
      exact .limit _ _
    split at he
    · cases he
    · cases he
      exact .malformed _ _
  · exact .ok _

section

variable {one : (s : Octets) → Reading Value s} (h : ∀ s, BlamesInput (one s))

include h

theorem blamesInput_values (s : Octets) : BlamesInput (values one s) := by
  fun_induction values one s with
  | case1 => exact .ok _
  | case2 b s e he => exact (h _).of_error he e.rest
  | case3 b s v t ht hv ih =>
    cases hvs : values one t with
    | error e =>
      rw [hvs] at ih
      exact ih
    | ok vs => exact .ok _

theorem blamesInput_valuesToEnd (s : Octets) : BlamesInput (valuesToEnd one s) := by
  fun_induction valuesToEnd one s with
  | case1 => exact .ok _
  | case2 a b s _ e he => exact (h _).of_error he e.rest
  | case3 a b s _ v t ht hv e he ih => exact ih.of_error he e.rest
  | case4 => exact .ok _
  | case5 => exact .malformed _ _

end

section

variable {nested : Option (Octets → (s : Octets) → Reading Value s)}
  (hn : ∀ one, nested = some one → ∀ buffer s, BlamesInput (one buffer s))

include hn

theorem blamesInput_contents (i : Identifier) (l : Length) (s : Octets) :
    BlamesInput (contents options nested i l s) := by
  unfold contents
  split
  · exact .ok _
  · exact .malformed _ _
  · exact .limit _ _
  · exact .limit _ _
  · rename_i one _
    split
    · rename_i he
      exact (blamesInput_values (hn one rfl _) _).of_error he _
    · exact .ok _
  · rename_i one _
    split
    · rename_i he
      exact (blamesInput_valuesToEnd (hn one rfl s) s).of_error he _
    · exact .ok _

theorem blamesInput_unit (buffer s : Octets) :
    BlamesInput (unit options nested buffer s) := by
  unfold unit
  split
  · rename_i e he
    exact (blamesInput_header s).of_error he e.rest
  split
  · exact .malformed _ _
  split
  · rename_i e he
    exact (blamesInput_contents hn _ _ _).of_error he e.rest
  split
  · rename_i he
    rintro _ ⟨⟩
    exact .inl (Value.kind_of_construct he)
  · exact .ok _

end

theorem blamesInput_value (d : Nat) (buffer s : Octets) :
    BlamesInput (value options d buffer s) := by
  induction d generalizing buffer s with
  | zero => exact blamesInput_unit (by rintro _ ⟨⟩) buffer s
  | succ d ih =>
    apply blamesInput_unit
    rintro _ ⟨⟩
    exact ih

end Reader

theorem UniversalType.expectNumber_of_ofNumber? {number : UInt32} {k : StringType}
    (h : ofNumber? number = some (.string k)) : StringType.expectNumber number = .ok k := by
  obtain rfl : (string k).number = number := by simpa using List.find?_some h
  exact k.expectNumber_number

namespace Value

theorem kind_of_ofOctets {options : ReaderOptions} {s : Octets} {e : Error}
    (h : ofOctets options s = .error e) : e.kind = .malformedInput ∨ e.kind = .limitExceeded := by
  unfold ofOctets at h
  split at h
  · rename_i f hf
    cases h
    exact Reader.blamesInput_value _ _ _ f hf
  · split at h
    · cases h
    · cases h
      exact .inl rfl

theorem kind_of_expectUniversal {v : Value} {number : UInt32} {e : Error}
    (h : v.expectUniversal number = .error e) : e.kind = .tagMismatch := by
  unfold expectUniversal at h
  split at h
  · cases h
  · cases h
    rfl

end Value

namespace Tagged

variable {tag : Tag} {rule : Rule} {c : Contents} {number : UInt32} {e : Error}

theorem kind_of_resolve_explicit (h : (raw tag rule c).resolve true number = .error e) :
    e.kind = .malformedInput ∨ e.kind = .tagMismatch := by
  match c, h with
  | .constructed [base], h => exact .inr (Value.kind_of_expectUniversal h)
  | .primitive _, h | .constructed [], h | .constructed (_ :: _ :: _), h =>
    cases h
    exact .inl rfl

theorem kind_of_resolve_implicit {entry : TypeEntry}
    (hentry : TypeEntry.ofNumber? number = some entry)
    (h : (raw tag rule c).resolve false number = .error e) : e.kind = .malformedInput := by
  simp only [resolve, Bool.false_eq_true, if_false, resolveImplicit, hentry] at h
  exact TypeEntry.kind_of_construct hentry h

end Tagged

theorem Error.isMalformed_of_kind {e : Error}
    (h : e.kind = .malformedInput ∨ e.kind = .limitExceeded ∨ e.kind = .tagMismatch) :
    e.isMalformed = true ∧ e.isSchemaContract = false := by
  unfold isMalformed isSchemaContract
  rcases h with h | h | h <;> rw [h] <;> exact ⟨rfl, rfl⟩

namespace Value

/-- Octets that are not taken are malformed or exceed a limit. In those that are, every tagged
object is kept as it was read; to resolve it as some type may fail because its contents are
malformed, or because there is another tag inside. No entry of the table of types fails for another
reason than its contents, since the entries of strings have the numbers of strings. -/
theorem faults_of_octets (options : ReaderOptions) (s : Octets) :
    (∀ e, ofOctets options s = .error e →
      (e.kind = .malformedInput ∨ e.kind = .limitExceeded) ∧
        e.isMalformed = true ∧ e.isSchemaContract = false) ∧
    (∀ v t, ofOctets options s = .ok v → tagged t ∈ v.subvalues → t.isRaw = true ∧
      ∀ isExplicit number entry, TypeEntry.ofNumber? number = some entry →
        ∀ e, t.resolve isExplicit number = .error e →
          (e.kind = .malformedInput ∨ e.kind = .tagMismatch) ∧
            e.isMalformed = true ∧ e.isSchemaContract = false) ∧
    (∀ number entry, TypeEntry.ofNumber? number = some entry →
      ∀ rule c e, entry.construct rule c = .error e → e.kind = .malformedInput) ∧
    ∀ number k, UniversalType.ofNumber? number = some (.string k) →
      StringType.expectNumber number = .ok k := by
  refine ⟨?_, ?_, ?_, fun number k h => UniversalType.expectNumber_of_ofNumber? h⟩
  · intro e he
    have hk := kind_of_ofOctets he
    exact ⟨hk, Error.isMalformed_of_kind (hk.imp_right .inl)⟩
  · intro v t hv ht
    obtain ⟨tag, c, rfl, -⟩ := (received_of_ofOctets hv).exists_raw_of_mem ht
    refine ⟨rfl, fun isExplicit number entry hentry e he => ?_⟩
    have hk : e.kind = .malformedInput ∨ e.kind = .tagMismatch := by
      cases isExplicit with
      | true => exact Tagged.kind_of_resolve_explicit he
      | false => exact .inl (Tagged.kind_of_resolve_implicit hentry he)
    exact ⟨hk, Error.isMalformed_of_kind (hk.imp_right .inr)⟩
  · intro number entry hentry rule c e he
    exact TypeEntry.kind_of_construct hentry he

def buriedOctets : Octets := [0x30, 8, 0xA1, 6, 0x02, 1, 5, 0x82, 1, 0xFF]

def buriedObject : Tagged := .raw (.context 2) .ber (.primitive [0xFF])

def buriedValue : Value :=
  .sequence [.tagged (.raw (.context 1) .ber
    (.constructed [.integer (.ofInt 5), .tagged buriedObject]))]

theorem faults_of_buriedOctets :
    ofOctets {} buriedOctets = .ok buriedValue ∧ tagged buriedObject ∈ buriedValue.subvalues ∧
      (∃ e, buriedObject.resolve false 5 = .error e ∧ e.isMalformed = true ∧
        e.isSchemaContract = false) ∧
      ∃ e, ofOctets {} (buriedOctets.take 9) = .error e ∧ e.isMalformed = true ∧
        e.isSchemaContract = false := by
  have h : ofOctets {} buriedOctets = .ok buriedValue := by cbv
  have hshort : ofOctets {} (buriedOctets.take 9) =
      .error (.malformed (.truncatedContents UniversalType.sequence.tag 8 7)) := by cbv
  have hmem : tagged buriedObject ∈ buriedValue.subvalues := by
    simp [buriedValue, subvalues, inner, innerAll, Tagged.inner, Contents.inner]
  have hnull : TypeEntry.ofNumber? 5 = some UniversalType.null.entry :=
    TypeEntry.ofNumber?_number .null
  have he : buriedObject.resolve false 5 = .error (.malformed .nullContents) := by cbv
  obtain ⟨-, hread, -⟩ := faults_of_octets {} buriedOctets
  obtain ⟨herror, -, -⟩ := faults_of_octets {} (buriedOctets.take 9)
  obtain ⟨-, hres⟩ := hread _ _ h hmem
  obtain ⟨-, hm⟩ := hres false 5 _ hnull _ he
  exact ⟨h, hmem, ⟨_, he, hm⟩, _, hshort, (herror _ hshort).2⟩

end Value

end Tlv
