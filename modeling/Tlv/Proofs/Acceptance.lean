import Tlv.Proofs.HeaderGrammar
import Tlv.Proofs.Wire

/-! # What the reader accepts

The reader takes the octets of a unit if the rule admits the forms of its headers, it keeps the
limits, and it stands for a value. `Value.ofOctets_eq_ok_iff` says that nothing else is taken. What
holds of every value that can be read is proved from there, by induction on the unit.
-/

namespace Tlv

/-- Behind a header with this length, `t` is the contents `c` and then `u`. -/
def Length.Delimits (t c u : Octets) : Length → Prop
  | .definite n => c.length = n ∧ t = c ++ u
  | .indefinite => t = c ++ Encoding.endMarker ++ u

/-- The units that a reader with `depth` levels left takes, with the values it takes them as. -/
structure Wire.Taken (options : ReaderOptions) (depth : Nat) (w : Wire) (v : Value) : Prop where
  admitted : w.Admitted options.rule
  depth_le : w.depth ≤ depth
  longest_le : w.longest ≤ options.lengthLimit.toNat
  denotes : w.Denotes options.rule v

namespace Reader

variable {options : ReaderOptions} {i : Identifier} {l : Length} {v : Value} {vs : List Value}
  {buffer s t u : Octets}

theorem le_of_checkLength {tag : Tag} {n : Nat} (h : checkLength options tag n t = .ok ()) :
    n ≤ options.lengthLimit.toNat ∧ n ≤ t.length := by
  rw [checkLength] at h
  split at h
  · cases h
  rename_i hlimit
  split at h
  case isTrue hlen => exact ⟨Nat.not_lt.1 hlimit, Octets.hasAtLeast_iff.1 hlen⟩
  case isFalse => cases h

theorem exists_header (h : Reads (header options s) (i, l) t) (hn : i.tag ≠ .endOfContents) :
    (∀ n, l = .definite n → n ≤ t.length) ∧
      ∃ hd : Header, hd.tag = i.tag ∧ (hd.length = .indefinite ↔ l = .indefinite) ∧
        ∀ c u, l.Delimits t c u → hd.Admits options.rule c.length ∧
          (hd.length ≠ .indefinite → c.length ≤ options.lengthLimit.toNat) ∧
          s = hd.frame i.constructed c ++ u := by
  obtain ⟨_, h⟩ := h
  rw [header] at h
  split at h
  · cases h
  rename_i j r hr hi
  obtain ⟨high, hhigh, rfl⟩ := Identifier.exists_form_of_read ⟨hr, hi⟩
  split at h
  · cases h
  · rename_i u hu hl
    cases h
    obtain ⟨hrule, rfl⟩ := LengthForm.indefinite_of_read ⟨hu, hl⟩
    refine ⟨by simp, ⟨i.tag, high, .indefinite⟩, rfl, by simp, ?_⟩
    rintro c u rfl
    refine ⟨⟨hn, hhigh, hrule⟩, by simp, ?_⟩
    simp [Header.frame, Header.identifierOctets, LengthForm.octets]
  · rename_i n u hu hl
    split at h
    · cases h
    rename_i hcheck
    cases h
    obtain ⟨hlimit, hlen⟩ := le_of_checkLength hcheck
    obtain ⟨-, form, hform, hadm, rfl⟩ := LengthForm.exists_form_of_read ⟨hu, hl⟩
    refine ⟨?_, ⟨i.tag, high, form⟩, rfl, by simp [hform], ?_⟩
    · rintro n hn
      cases hn
      exact hlen
    · rintro c u ⟨rfl, rfl⟩
      refine ⟨⟨hn, hhigh, hadm⟩, fun _ => hlimit, ?_⟩
      simp [Header.frame, Header.identifierOctets, hform]

section

variable {one : (s : Octets) → Reading Value s} {P : Wire → Value → Prop}
  (hone : ∀ s v t, Reads (one s) v t → ∃ w : Wire, s = w.octets ++ t ∧ P w v)

include hone

theorem exists_of_values (h : values one s = .ok vs) :
    ∃ ws, s = Wire.joined ws ∧ List.Forall₂ P ws vs := by
  fun_induction values one s generalizing vs with
  | case1 =>
    cases h
    exact ⟨[], rfl, .nil⟩
  | case2 => cases h
  | case3 b s v t ht hv ih =>
    cases hvs : values one t with
    | error e =>
      rw [hvs] at h
      cases h
    | ok ws =>
      rw [hvs] at h
      cases h
      obtain ⟨w, hw, hp⟩ := hone _ _ _ ⟨ht, hv⟩
      obtain ⟨ws, rfl, hps⟩ := ih hvs
      exact ⟨w :: ws, hw, .cons hp hps⟩

theorem exists_of_valuesToEnd {hu : u.length ≤ s.length}
    (h : valuesToEnd one s = .ok (vs, ⟨u, hu⟩)) :
    ∃ ws, s = Wire.joined ws ++ Encoding.endMarker ++ u ∧ List.Forall₂ P ws vs := by
  fun_induction valuesToEnd one s generalizing vs u with
  | case1 s =>
    cases h
    exact ⟨[], rfl, .nil⟩
  | case2 => cases h
  | case3 => cases h
  | case4 a b s hne v t ht hv vs u hu hvs ih =>
    cases h
    obtain ⟨w, hw, hp⟩ := hone _ _ _ ⟨ht, hv⟩
    obtain ⟨ws, rfl, hps⟩ := ih hvs
    refine ⟨w :: ws, ?_, .cons hp hps⟩
    rw [hw, Wire.joined]
    simp only [List.append_assoc]
  | case5 => cases h

end

section

variable {nested : Option (Octets → (s : Octets) → Reading Value s)} {P : Wire → Value → Prop}
  (hone : ∀ one, nested = some one → ∀ buffer s v t,
    Reads (one buffer s) v t → ∃ w : Wire, s = w.octets ++ t ∧ P w v)

include hone

theorem exists_of_contents {c : Contents} {hu : u.length ≤ t.length}
    (hl : ∀ n, l = .definite n → n ≤ t.length)
    (h : contents options nested i l t = .ok (c, ⟨u, hu⟩)) :
    (i.constructed = false ∧ l ≠ .indefinite ∧ ∃ s, c = .primitive s ∧ l.Delimits t s u) ∨
      (i.constructed = true ∧ nested.isSome ∧ ∃ ws vs, c = .constructed vs ∧
        l.Delimits t (Wire.joined ws) u ∧ List.Forall₂ P ws vs) := by
  have split_at {n : Nat} (hn : n ≤ t.length) :
      (Length.definite n).Delimits t (t.take n) (t.drop n) :=
    ⟨by rw [List.length_take, Nat.min_eq_left hn], (List.take_append_drop n t).symm⟩
  unfold contents at h
  split at h
  · rename_i n hi
    cases h
    exact .inl ⟨hi, by simp, _, rfl, split_at (hl n rfl)⟩
  · cases h
  · cases h
  · cases h
  · rename_i n one hi
    split at h
    · cases h
    rename_i vs hvs
    cases h
    obtain ⟨ws, hw, hp⟩ := exists_of_values (hone one rfl _) hvs
    refine .inr ⟨hi, rfl, ws, vs, rfl, ?_, hp⟩
    rw [← hw]
    exact split_at (hl n rfl)
  · rename_i one hi
    split at h
    · cases h
    rename_i vs r hvs
    cases h
    obtain ⟨ws, hw, hp⟩ := exists_of_valuesToEnd (hone one rfl _) hvs
    exact .inr ⟨hi, rfl, ws, vs, rfl, hw, hp⟩

theorem exists_of_unit (h : Reads (unit options nested buffer s) v t) :
    ∃ hd : Header, ∃ hn : hd.tag ≠ .endOfContents,
      (∃ c, hd.length ≠ .indefinite ∧ s = (Wire.primitive hd c).octets ++ t ∧
        hd.Admits options.rule c.length ∧ c.length ≤ options.lengthLimit.toNat ∧
        Value.ofContents hd.tag hn options.rule (.primitive c) = .ok v) ∨
      (nested.isSome ∧ ∃ ws vs, s = (Wire.constructed hd ws).octets ++ t ∧
        hd.Admits options.rule (Wire.joined ws).length ∧
        (hd.length ≠ .indefinite → (Wire.joined ws).length ≤ options.lengthLimit.toNat) ∧
        List.Forall₂ P ws vs ∧
        Value.ofContents hd.tag hn options.rule (.constructed vs) = .ok v) := by
  obtain ⟨_, h⟩ := h
  rw [unit] at h
  split at h
  · cases h
  rename_i i l r hr hh
  obtain ⟨tag, constructed⟩ := i
  split at h
  case isTrue => cases h
  case isFalse hn =>
    split at h
    · cases h
    rename_i c u hu hc
    split at h
    · cases h
    rename_i v hv
    have hv := Value.construct_eq_ok_iff.1 hv
    cases h
    obtain ⟨hl, hd, htag, hform, hd'⟩ := exists_header ⟨hr, hh⟩ hn
    obtain rfl : hd.tag = tag := htag
    refine ⟨hd, hn, ?_⟩
    rcases exists_of_contents hone hl hc with
      ⟨rfl, hdef, c, rfl, hdel⟩ | ⟨rfl, hsome, ws, vs, rfl, hdel, hp⟩
    · have hne : hd.length ≠ .indefinite := fun he => hdef (hform.1 he)
      obtain ⟨hadm, hlimit, rfl⟩ := hd' _ _ hdel
      exact .inl ⟨c, hne, rfl, hadm, hlimit hne, hv⟩
    · obtain ⟨hadm, hlimit, rfl⟩ := hd' _ _ hdel
      exact .inr ⟨hsome, ws, vs, rfl, hadm, hlimit, hp, hv⟩

end

end Reader

namespace Wire

variable {options : ReaderOptions} {d : Nat} {w : Wire} {v : Value} {buffer s t : Octets}

theorem taken_primitive {h : Header} {c : Octets} (hn : h.tag ≠ .endOfContents)
    (ha : h.Admits options.rule c.length) (hl : h.length ≠ .indefinite)
    (hc : c.length ≤ options.lengthLimit.toNat)
    (hv : Value.ofContents h.tag hn options.rule (.primitive c) = .ok v) :
    (primitive h c).Taken options d v where
  admitted := ⟨ha, hl⟩
  depth_le := Nat.zero_le d
  longest_le := hc
  denotes := .primitive hn hv

theorem taken_constructed {h : Header} {ws : List Wire} {vs : List Value}
    (hn : h.tag ≠ .endOfContents) (ha : h.Admits options.rule (joined ws).length)
    (hl : h.length ≠ .indefinite → (joined ws).length ≤ options.lengthLimit.toNat)
    (hs : List.Forall₂ (Taken options d) ws vs)
    (hv : Value.ofContents h.tag hn options.rule (.constructed vs) = .ok v) :
    (constructed h ws).Taken options (d + 1) v := by
  have hmem : ∀ w ∈ ws, ∃ v, w.Taken options d v :=
    forall_mem_of_forall₂_left (hs.imp fun _ v hw => ⟨v, hw⟩)
  refine ⟨⟨ha, allAdmitted_iff.2 ?_⟩, Nat.succ_le_succ (depths_le_iff.2 ?_),
    Nat.max_le.2 ⟨?_, longests_le_iff.2 ?_⟩, .constructed hn (hs.imp fun _ _ hw => hw.denotes) hv⟩
  · intro w hw
    obtain ⟨v, hw⟩ := hmem w hw
    exact hw.admitted
  · intro w hw
    obtain ⟨v, hw⟩ := hmem w hw
    exact hw.depth_le
  · split
    · exact Nat.zero_le _
    · rename_i hne
      exact hl hne
  · intro w hw
    obtain ⟨v, hw⟩ := hmem w hw
    exact hw.longest_le

theorem reads_value_iff :
    Reads (Reader.value options d buffer s) v t ↔
      ∃ w : Wire, s = w.octets ++ t ∧ w.Taken options d v := by
  constructor
  · intro h
    induction d generalizing buffer s v t with
    | zero =>
      have hone : ∀ one : Octets → (s : Octets) → Reading Value s, none = some one →
          ∀ buffer s v t, Reads (one buffer s) v t →
            ∃ w : Wire, s = w.octets ++ t ∧ w.Taken options 0 v := by
        rintro _ ⟨⟩
      rcases Reader.exists_of_unit hone h with
        ⟨hd, hn, ⟨c, hne, rfl, ha, hl, hv⟩ | ⟨hsome, -⟩⟩
      · exact ⟨_, rfl, taken_primitive hn ha hne hl hv⟩
      · cases hsome
    | succ d ih =>
      have hone : ∀ one, some (Reader.value options d) = some one → ∀ buffer s v t,
          Reads (one buffer s) v t → ∃ w : Wire, s = w.octets ++ t ∧ w.Taken options d v := by
        rintro _ he _ _ _ _ h
        cases he
        exact ih h
      rcases Reader.exists_of_unit hone h with
        ⟨hd, hn, ⟨c, hne, rfl, ha, hl, hv⟩ | ⟨-, ws, vs, rfl, ha, hl, hs, hv⟩⟩
      · exact ⟨_, rfl, taken_primitive hn ha hne hl hv⟩
      · exact ⟨_, rfl, taken_constructed hn ha hl hs hv⟩
  · rintro ⟨w, rfl, h⟩
    exact w.reads_value h.admitted h.depth_le h.longest_le h.denotes buffer t

end Wire

/-- Octets are read as a value exactly if they are those of a unit that is taken as it. -/
theorem Value.ofOctets_eq_ok_iff {options : ReaderOptions} {s : Octets} {v : Value} :
    ofOctets options s = .ok v ↔
      ∃ w : Wire, w.octets = s ∧ w.Taken options options.depthLimit.toNat v := by
  constructor
  · intro h
    rw [ofOctets] at h
    split at h
    · cases h
    rename_i v' t ht hr
    split at h
    case isTrue hnil =>
      cases h
      obtain ⟨w, hw, htaken⟩ := Wire.reads_value_iff.1 ⟨ht, hr⟩
      exact ⟨w, by rw [hw, hnil, List.append_nil], htaken⟩
    case isFalse => cases h
  · rintro ⟨w, rfl, h⟩
    exact Wire.ofOctets_octets h.admitted ⟨h.depth_le, h.longest_le⟩ h.denotes

end Tlv
