import Tlv.Proofs.Contents
import Tlv.Proofs.Encoded
import Tlv.Tagged.Resolution

/-! # Implicit tags

The contents of a unit are read before its tag tells what they are. So they are read alike under
any tag, and a type that an implicit tag hides makes of them later what the reader makes of them at
once under the tag of the type.
-/

namespace Tlv

/-- The same value, or errors of the same kind. -/
inductive Agrees {α : Type} : Result α → Result α → Prop where
  | ok (a : α) : Agrees (.ok a) (.ok a)
  | error {e f : Error} (h : e.kind = f.kind) : Agrees (.error e) (.error f)

namespace Agrees

variable {α β : Type} {x y : Result α} {f g : α → Result β}

theorem refl (x : Result α) : Agrees x x := by
  cases x with
  | ok a => exact .ok a
  | error e => exact .error rfl

theorem bind (h : Agrees x y) (hfg : ∀ a, Agrees (f a) (g a)) : Agrees (x >>= f) (y >>= g) := by
  cases h with
  | ok a => exact hfg a
  | error h => exact .error h

end Agrees

namespace Reader

variable (options : ReaderOptions)

def elements : (depth : Nat) → Option (Octets → (s : Octets) → Reading Value s)
  | 0 => none
  | depth + 1 => some (value options depth)

theorem value_eq_unit (depth : Nat) :
    value options depth = unit options (elements options depth) := by
  cases depth <;> rfl

/-- The contents behind a header, and what stands behind them. -/
def delimited (i : Identifier) (l : Length) (s : Octets) : Result (Contents × Octets) :=
  match contents options (elements options options.depthLimit.toNat) i l s with
  | .error e => .error e.error
  | .ok (c, ⟨t, _⟩) => .ok (c, t)

def body (i : Identifier) (s : Octets) : Result (Contents × Octets) :=
  match Length.read options.rule s with
  | .error e => .error (.malformed e)
  | .ok (.indefinite, ⟨t, _⟩) => delimited options i .indefinite t
  | .ok (.definite n, ⟨t, _⟩) => do
    checkLength options i.tag n t
    delimited options i (.definite n) t

variable {i j : Identifier} {l : Length}

theorem agrees_checkLength (tag tag' : Tag) (n : Nat) (s : Octets) :
    Agrees (checkLength options tag n s) (checkLength options tag' n s) := by
  unfold checkLength
  split
  · exact .error rfl
  split
  · exact .ok ()
  · exact .error rfl

theorem agrees_delimited (h : i.constructed = j.constructed) (l : Length) (s : Octets) :
    Agrees (delimited options i l s) (delimited options j l s) := by
  obtain ⟨tag, constructed⟩ := i
  obtain ⟨tag', constructed'⟩ := j
  obtain rfl : constructed = constructed' := h
  unfold delimited
  generalize elements options options.depthLimit.toNat = nested
  cases constructed with
  | false =>
    cases l with
    | definite n => exact .refl _
    | indefinite => exact .error rfl
  | true => cases nested <;> cases l <;> exact .refl _

/-- The tag in front has no part in how contents are read. -/
theorem agrees_body (h : i.constructed = j.constructed) (s : Octets) :
    Agrees (body options i s) (body options j s) := by
  unfold body
  split
  · exact .error rfl
  · exact agrees_delimited options h _ _
  · exact (agrees_checkLength options _ _ _ _).bind fun _ => agrees_delimited options h _ _

end Reader

namespace Value

variable {options : ReaderOptions}

/-- The value of contents, behind which nothing must stand. -/
def ofContentsAtEnd (rule : Rule) (tag : Tag) (hn : tag ≠ .endOfContents) (c : Contents)
    (t : Octets) : Result Value := do
  let v ← (ofContents tag hn rule c).mapError .malformed
  if t = [] then .ok v else .error (.malformed (.trailingOctets t.length))

theorem ofOctets_of_header {i : Identifier} {l : Length} {s t : Octets}
    (hn : i.tag ≠ .endOfContents) (h : Reads (Reader.header options s) (i, l) t) :
    ofOctets options s = Reader.delimited options i l t >>= fun r =>
      ofContentsAtEnd options.rule i.tag hn r.1 r.2 := by
  obtain ⟨_, h⟩ := h
  rw [ofOctets, Reader.value_eq_unit, Reader.unit]
  simp only [h, dif_neg hn, Reader.delimited]
  cases hc : Reader.contents options (Reader.elements options options.depthLimit.toNat) i l t with
  | error e => rfl
  | ok r =>
    obtain ⟨c, u, hu⟩ := r
    dsimp only [bind, Except.bind]
    rw [construct_eq, ofContentsAtEnd]
    cases ofContents i.tag hn options.rule c <;> rfl

theorem ofOctets_append {i : Identifier} (hn : i.tag ≠ .endOfContents) (s : Octets) :
    ofOctets options (i.octets ++ s) = Reader.body options i s >>= fun r =>
      ofContentsAtEnd options.rule i.tag hn r.1 r.2 := by
  obtain ⟨_, hi⟩ := i.reads_octets options.rule s
  unfold Reader.body
  split
  · rename_i hl
    rw [ofOctets, Reader.value_eq_unit, Reader.unit]
    simp only [Reader.header, hi, hl]
    rfl
  · rename_i hl
    apply ofOctets_of_header hn
    simp only [Reader.header, hi, hl]
    exact ⟨_, rfl⟩
  · rename_i n t _ hl
    cases hc : Reader.checkLength options i.tag n t with
    | error e =>
      rw [ofOctets, Reader.value_eq_unit, Reader.unit]
      simp only [Reader.header, hi, hl, hc]
      rfl
    | ok =>
      apply ofOctets_of_header hn
      simp only [Reader.header, hi, hl, hc]
      exact ⟨_, rfl⟩

theorem ofContentsAtEnd_tagged {rule : Rule} {tag : Tag} (hc : tag.cls ≠ .universal)
    (hn : tag ≠ .endOfContents) (c : Contents) (t : Octets) :
    ofContentsAtEnd rule tag hn c t = if t = [] then .ok (.tagged (.raw tag rule c))
      else .error (.malformed (.trailingOctets t.length)) := by
  rw [ofContentsAtEnd, ofContents_tagged hc]
  rfl

theorem resolve_raw {rule : Rule} (u : UniversalType) (tag : Tag) (c : Contents) :
    (Tagged.raw tag rule c).resolve false u.number = (u.ofContents rule c).mapError .malformed := by
  rw [Tagged.resolve, if_neg Bool.false_ne_true, Tagged.resolveImplicit_eq,
    u.ofNumber?_number]

/-- Octets are read as a value of a registered type exactly if, under another tag, they are read as
a tagged object that is resolved implicitly as the same value. If one of the two fails, so does the
other, with an error of the same kind. -/
theorem ofOctets_iff_resolve {n : UInt32} {u : UniversalType}
    (hu : UniversalType.ofNumber? n = some u) {tag : Tag} (hc : tag.cls ≠ .universal)
    (options : ReaderOptions) (constructed : Bool) (s : Octets) :
    (∀ v, ofOctets options (Identifier.octets ⟨.universal n, constructed⟩ ++ s) = .ok v ↔
      ∃ x, ofOctets options (Identifier.octets ⟨tag, constructed⟩ ++ s) = .ok (.tagged x) ∧
        x.resolve false n = .ok v) ∧
    ∀ k : ErrorKind,
      (∃ e, ofOctets options (Identifier.octets ⟨.universal n, constructed⟩ ++ s) = .error e ∧
        e.kind = k) ↔
      (∃ e, ofOctets options (Identifier.octets ⟨tag, constructed⟩ ++ s) = .error e ∧ e.kind = k) ∨
        ∃ x e, ofOctets options (Identifier.octets ⟨tag, constructed⟩ ++ s) = .ok (.tagged x) ∧
          x.resolve false n = .error e ∧ e.kind = k := by
  obtain rfl : u.number = n := by simpa using List.find?_some hu
  have hn : tag ≠ .endOfContents := fun h => hc (congrArg Tag.cls h)
  have hb : Agrees (Reader.body options ⟨u.tag, constructed⟩ s)
      (Reader.body options ⟨tag, constructed⟩ s) :=
    Reader.agrees_body (i := ⟨u.tag, constructed⟩) (j := ⟨tag, constructed⟩) options rfl s
  rw [show Tag.universal u.number = u.tag from rfl,
    ofOctets_append (i := ⟨u.tag, constructed⟩) u.tag_ne,
    ofOctets_append (i := ⟨tag, constructed⟩) hn]
  generalize Reader.body options ⟨u.tag, constructed⟩ s = x at hb ⊢
  generalize Reader.body options ⟨tag, constructed⟩ s = y at hb ⊢
  cases hb with
  | error hk =>
    constructor
    · intro v
      simp [bind, Except.bind]
    · intro k
      simp [bind, Except.bind, hk]
  | ok r =>
    obtain ⟨c, t⟩ := r
    have hres : (Tagged.raw tag options.rule c).resolve false u.number =
        (u.ofContents options.rule c).mapError .malformed := resolve_raw u tag c
    simp only [bind, Except.bind, ofContentsAtEnd_tagged hc hn]
    rw [ofContentsAtEnd, ofContents_universal]
    generalize u.ofContents options.rule c = x at hres ⊢
    -- bad contents and octets left behind are found in another order, as faults of one kind
    have hkind (m : Malformation) : (Error.malformed m).kind = .malformedInput := rfl
    cases x <;> by_cases ht : t = [] <;>
      simp [hres, ht, hkind, bind, Except.bind, Except.mapError]

/-- The segments of a BIT STRING below a tag that hides its type. -/
theorem resolve_hiddenSegments :
    ∃ x, ofOctets (.ofRule .ber)
        [0xA5, 0x80, 0x03, 2, 0, 0xAA, 0x23, 4, 0x03, 2, 4, 0xF0, 0, 0] = .ok (.tagged x) ∧
      x.resolve false 3 = .ok (.bitString ⟨4, [0xAA, 0xF0], by decide, by decide⟩) := by
  have hu : UniversalType.ofNumber? 3 = some .bitString := by decide
  have hc : (Tag.context 5).cls ≠ .universal := by decide
  obtain ⟨hok, -⟩ := ofOctets_iff_resolve hu hc (.ofRule .ber) true
    [0x80, 0x03, 2, 0, 0xAA, 0x23, 4, 0x03, 2, 4, 0xF0, 0, 0]
  exact (hok _).1 (by cbv)

end Value

end Tlv
