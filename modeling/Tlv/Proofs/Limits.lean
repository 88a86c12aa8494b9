import Tlv.Proofs.Acceptance

/-! # Limits

The limits of a reader have no part in what it makes of octets: with narrower limits it gives what
it gave before, or says that a limit is exceeded. Octets are units in one way only, so how deep
they nest and what lengths they declare is settled before any reading, and this alone tells which
limits they keep.
-/

namespace Tlv

/-- The first outcome is the second, or an exceeded limit. -/
def Narrows {α : Type} (x y : Except Failure α) : Prop :=
  x = y ∨ ∃ f, x = .error f ∧ f.error.kind = .limitExceeded

namespace Narrows

variable {α : Type} {x y : Except Failure α} {a : α} {f : Failure}

theorem refl (x : Except Failure α) : Narrows x x := .inl rfl

theorem limit (h : f.error.kind = .limitExceeded) : Narrows (.error f) y := .inr ⟨f, rfl, h⟩

theorem eq_ok (h : Narrows x y) (hx : x = .ok a) : y = .ok a := by
  rcases h with rfl | ⟨f, hf, -⟩
  · exact hx
  · cases hx.symm.trans hf

theorem eq_error (h : Narrows x y) (hx : x = .error f) :
    y = .error f ∨ f.error.kind = .limitExceeded := by
  rcases h with rfl | ⟨e, he, hk⟩
  · exact .inl hx
  · cases hx.symm.trans he
    exact .inr hk

end Narrows

namespace Reader

variable {c c' : ReaderOptions}

section

variable {one one' : (s : Octets) → Reading Value s} (h : ∀ s, Narrows (one s) (one' s))

include h

theorem narrows_values (s : Octets) : Narrows (values one s) (values one' s) := by
  fun_induction values one s with
  | case1 =>
    rw [values]
    exact .refl _
  | case2 b s e he =>
    rcases (h _).eq_error he with he' | hk
    · rw [values, he']
      exact .refl _
    · exact .limit hk
  | case3 b s v t ht hv ih =>
    rw [values, (h _).eq_ok hv]
    dsimp only
    rcases ih with heq | ⟨f, hf, hk⟩
    · rw [heq]
      exact .refl _
    · rw [hf]
      exact .limit hk

theorem narrows_valuesToEnd (s : Octets) : Narrows (valuesToEnd one s) (valuesToEnd one' s) := by
  fun_induction valuesToEnd one s with
  | case1 s =>
    rw [valuesToEnd]
    exact .refl _
  | case2 a b s hne e he =>
    rcases (h _).eq_error he with he' | hk
    · rw [valuesToEnd, he']
      · exact .refl _
      · exact hne
    · exact .limit hk
  | case3 a b s hne v t ht hv e he ih =>
    rcases ih.eq_error he with he' | hk
    · rw [valuesToEnd, (h _).eq_ok hv]
      · simp only [he']
        exact .refl _
      · exact hne
    · exact .limit hk
  | case4 a b s hne v t ht hv vs u hu hvs ih =>
    rw [valuesToEnd, (h _).eq_ok hv]
    · simp only [ih.eq_ok hvs]
      exact .refl _
    · exact hne
  | case5 s h₁ h₂ =>
    rw [valuesToEnd]
    · exact .refl _
    · exact h₁
    · exact h₂

end

theorem checkLength_eq_or_limit (hl : c.lengthLimit ≤ c'.lengthLimit) (tag : Tag) (n : Nat)
    (s : Octets) :
    checkLength c tag n s = checkLength c' tag n s ∨
      ∃ e, checkLength c tag n s = .error e ∧ e.kind = .limitExceeded := by
  rw [UInt64.le_iff_toNat_le] at hl
  unfold checkLength
  split
  · exact .inr ⟨_, rfl, rfl⟩
  · have hn : ¬ c'.lengthLimit.toNat < n := by omega
    rw [if_neg hn]
    exact .inl rfl

theorem narrows_header (hr : c.rule = c'.rule) (hl : c.lengthLimit ≤ c'.lengthLimit)
    (s : Octets) : Narrows (header c s) (header c' s) := by
  unfold header
  rw [hr]
  split
  · exact .refl _
  split
  · exact .refl _
  · exact .refl _
  rename_i i _ _ _ _ n u _ _
  rcases checkLength_eq_or_limit hl i.tag n u with heq | ⟨e, he, hk⟩
  · rw [heq]
    exact .refl _
  · rw [he]
    exact .limit hk

section

variable {nested nested' : Option (Octets → (s : Octets) → Reading Value s)}
  (hn : ∀ one, nested = some one → ∃ one', nested' = some one' ∧
    ∀ buffer s, Narrows (one buffer s) (one' buffer s))

include hn

theorem narrows_contents (i : Identifier) (l : Length) (s : Octets) :
    Narrows (contents c nested i l s) (contents c' nested' i l s) := by
  obtain ⟨tag, constructed⟩ := i
  cases constructed with
  | false => cases l <;> exact .refl _
  | true =>
    cases nested with
    | none => cases l <;> exact .limit rfl
    | some one =>
      obtain ⟨one', rfl, h⟩ := hn one rfl
      cases l with
      | definite n =>
        simp only [contents]
        rcases narrows_values (h (s.take n)) (s.take n) with heq | ⟨f, hf, hk⟩
        · rw [heq]
          exact .refl _
        · rw [hf]
          exact .limit hk
      | indefinite =>
        simp only [contents]
        rcases narrows_valuesToEnd (h s) s with heq | ⟨f, hf, hk⟩
        · rw [heq]
          exact .refl _
        · rw [hf]
          exact .limit hk

theorem narrows_unit (hr : c.rule = c'.rule) (hl : c.lengthLimit ≤ c'.lengthLimit)
    (buffer s : Octets) : Narrows (unit c nested buffer s) (unit c' nested' buffer s) := by
  unfold unit
  rcases narrows_header hr hl s with heq | ⟨f, hf, hk⟩
  · rw [heq, hr]
    split
    · exact .refl _
    rename_i i l t _ _
    split
    · exact .refl _
    rcases narrows_contents hn i l t with heq | ⟨f, hf, hk⟩
    · rw [heq]
      exact .refl _
    · rw [hf]
      exact .limit hk
  · rw [hf]
    exact .limit hk

end

/-- Each level is read with narrower limits, and there may be fewer levels. -/
theorem narrows_value (hr : c.rule = c'.rule) (hl : c.lengthLimit ≤ c'.lengthLimit) {d d' : Nat}
    (hd : d ≤ d') (buffer s : Octets) : Narrows (value c d buffer s) (value c' d' buffer s) := by
  induction d generalizing d' buffer s with
  | zero =>
    cases d' <;> exact narrows_unit (by rintro _ ⟨⟩) hr hl buffer s
  | succ d ih =>
    cases d' with
    | zero => cases hd
    | succ d' =>
      refine narrows_unit ?_ hr hl buffer s
      rintro _ ⟨⟩
      exact ⟨_, rfl, ih (Nat.le_of_succ_le_succ hd)⟩

end Reader

theorem Value.ofOctets_eq_or_limit {c c' : ReaderOptions} (hr : c.rule = c'.rule)
    (hd : c.depthLimit ≤ c'.depthLimit) (hl : c.lengthLimit ≤ c'.lengthLimit) (s : Octets) :
    ofOctets c s = ofOctets c' s ∨ ∃ e, ofOctets c s = .error e ∧ e.kind = .limitExceeded := by
  rw [UInt64.le_iff_toNat_le] at hd
  unfold ofOctets
  rcases Reader.narrows_value hr hl hd s s with heq | ⟨f, hf, hk⟩
  · rw [heq]
    exact .inl rfl
  · rw [hf]
    exact .inr ⟨_, rfl, hk⟩

/-! ## Octets are units in one way -/

namespace Wire

variable {rule : Rule}

/-- The octets do not go on with another unit. -/
def Ends (s : Octets) : Prop := ∀ a t, s = a :: t → a = 0

theorem ends_nil : Ends [] := by
  rintro a t ⟨⟩

theorem ends_endMarker (s : Octets) : Ends (Encoding.endMarker ++ s) := by
  rintro a t ⟨⟩
  rfl

mutual

/-- Octets that begin with units in two ways begin with units that nest as deep and declare the
same lengths. -/
theorem shape_eq : ∀ (w w' : Wire) {s t : Octets}, w.Admitted rule → w'.Admitted rule →
    w.octets ++ s = w'.octets ++ t → w.depth = w'.depth ∧ w.longest = w'.longest ∧ s = t
  | primitive h c, primitive h' c', s, t, ha, ha', he => by
    obtain ⟨-, -, hdef, -⟩ := Header.frame_append_inj ha.1 ha'.1 he
    obtain ⟨rfl, rfl⟩ := hdef ha.2
    exact ⟨rfl, rfl, rfl⟩
  | constructed h ws, constructed h' ws', s, t, ha, ha', he => by
    obtain ⟨-, hl, hdef, hind⟩ := Header.frame_append_inj ha.1 ha'.1 he
    by_cases hopen : h.length = .indefinite
    · obtain ⟨hd, hls, hend⟩ := shapes_eq ws ws' ha.2 ha'.2 (ends_endMarker s) (ends_endMarker t)
        (hind hopen)
      refine ⟨congrArg (· + 1) hd, ?_, List.append_cancel_left hend⟩
      rw [longest, longest, ← hl, if_pos hopen, if_pos hopen, hls]
    · obtain ⟨hj, rfl⟩ := hdef hopen
      obtain ⟨hd, hls, -⟩ := shapes_eq ws ws' ha.2 ha'.2 ends_nil ends_nil (congrArg (· ++ []) hj)
      refine ⟨congrArg (· + 1) hd, ?_, rfl⟩
      rw [longest, longest, ← hl, hj, hls]
  | primitive h c, constructed h' ws', s, t, ha, ha', he => by
    cases (Header.frame_append_inj ha.1 ha'.1 he).1
  | constructed h ws, primitive h' c', s, t, ha, ha', he => by
    cases (Header.frame_append_inj ha.1 ha'.1 he).1

theorem shapes_eq : ∀ (ws ws' : List Wire) {s t : Octets}, AllAdmitted rule ws →
    AllAdmitted rule ws' → Ends s → Ends t → joined ws ++ s = joined ws' ++ t →
      depths ws = depths ws' ∧ longests ws = longests ws' ∧ s = t
  | [], [], s, t, _, _, _, _, he => ⟨rfl, rfl, he⟩
  | [], w' :: ws', s, t, _, ha', hs, _, he => by
    obtain ⟨a, b, u, hu, ha⟩ := octets_append_eq ha'.1 (joined ws' ++ t)
    rw [joined, joined, List.append_assoc, hu] at he
    exact absurd (hs a _ he) ha
  | w :: ws, [], s, t, ha, _, _, ht, he => by
    obtain ⟨a, b, u, hu, ha⟩ := octets_append_eq ha.1 (joined ws ++ s)
    rw [joined, joined, List.append_assoc, hu] at he
    exact absurd (ht a _ he.symm) ha
  | w :: ws, w' :: ws', s, t, ha, ha', hs, ht, he => by
    rw [joined, joined, List.append_assoc, List.append_assoc] at he
    obtain ⟨hd, hl, he⟩ := shape_eq w w' ha.1 ha'.1 he
    obtain ⟨hds, hls, he⟩ := shapes_eq ws ws' ha.2 ha'.2 hs ht he
    refine ⟨?_, ?_, he⟩
    · rw [depths, depths, hd, hds]
    · rw [longests, longests, hl, hls]

end

end Wire

namespace Value

variable {c c' : ReaderOptions} {s : Octets} {v : Value}

theorem ofOctets_eq_ok_iff_within (hr : c.rule = c'.rule) (h : ofOctets c' s = .ok v) {w : Wire}
    (hw : w.octets = s) (ha : w.Admitted c.rule) : ofOctets c s = .ok v ↔ w.Within c := by
  have shape {u : Wire} (hu : u.octets = s) (ha' : u.Admitted c.rule) :
      u.depth = w.depth ∧ u.longest = w.longest := by
    obtain ⟨hd, hl, -⟩ := Wire.shape_eq u w ha' ha (congrArg (· ++ []) (hu.trans hw.symm))
    exact ⟨hd, hl⟩
  constructor
  · intro hc
    obtain ⟨u, hu, htaken⟩ := ofOctets_eq_ok_iff.1 hc
    obtain ⟨hd, hl⟩ := shape hu htaken.admitted
    exact ⟨hd ▸ htaken.depth_le, hl ▸ htaken.longest_le⟩
  · intro hin
    obtain ⟨u, hu, htaken⟩ := ofOctets_eq_ok_iff.1 h
    obtain ⟨hd, hl⟩ := shape hu (hr ▸ htaken.admitted)
    refine ofOctets_eq_ok_iff.2 ⟨u, hu, hr ▸ htaken.admitted, ?_, ?_, hr ▸ htaken.denotes⟩
    · exact hd ▸ hin.1
    · exact hl ▸ hin.2

/-- Wider limits never change what is read. Narrower ones at most refuse it as too deep or too
long, and do so exactly if the units nest deeper, or declare a greater length, than they allow. -/
theorem limits_filter (hr : c.rule = c'.rule) (hd : c.depthLimit ≤ c'.depthLimit)
    (hl : c.lengthLimit ≤ c'.lengthLimit) (s : Octets) (v : Value) :
    (ofOctets c s = .ok v → ofOctets c' s = .ok v) ∧
    (ofOctets c' s = .ok v →
      (ofOctets c s = .ok v ∨ ∃ e, ofOctets c s = .error e ∧ e.kind = .limitExceeded) ∧
      (∃ w : Wire, w.octets = s ∧ w.Admitted c.rule) ∧
      ∀ w : Wire, w.octets = s → w.Admitted c.rule →
        (ofOctets c s = .ok v ↔
          w.depth ≤ c.depthLimit.toNat ∧ w.longest ≤ c.lengthLimit.toNat)) := by
  have hcases := ofOctets_eq_or_limit hr hd hl s
  refine ⟨fun h => ?_, fun h => ⟨?_, ?_, ?_⟩⟩
  · rcases hcases with heq | ⟨e, he, -⟩
    · exact heq.symm.trans h
    · cases h.symm.trans he
  · rwa [h] at hcases
  · obtain ⟨w, hw, htaken⟩ := ofOctets_eq_ok_iff.1 h
    exact ⟨w, hw, hr ▸ htaken.admitted⟩
  · intro w hw ha
    exact ofOctets_eq_ok_iff_within hr h hw ha

def twoLevels : Wire :=
  .constructed ⟨UniversalType.sequence.tag, false, .indefinite⟩
    [.constructed ⟨UniversalType.sequence.tag, false, .short⟩
      [.primitive ⟨UniversalType.integer.tag, false, .short⟩ [5]]]

theorem limits_filter_twoLevels :
    (∃ e, ofOctets ⟨.ber, 1, 3⟩ [0x30, 0x80, 0x30, 3, 0x02, 1, 5, 0, 0] = .error e ∧
      e.kind = .limitExceeded) ∧
    ∃ e, ofOctets ⟨.ber, 2, 2⟩ [0x30, 0x80, 0x30, 3, 0x02, 1, 5, 0, 0] = .error e ∧
      e.kind = .limitExceeded := by
  have h : ofOctets {} [0x30, 0x80, 0x30, 3, 0x02, 1, 5, 0, 0] =
      .ok (.sequence [.sequence [.integer (.ofInt 5)]]) := by cbv
  have hw : twoLevels.octets = [0x30, 0x80, 0x30, 3, 0x02, 1, 5, 0, 0] := by decide
  have ha : twoLevels.Admitted .ber := by decide
  constructor
  · obtain ⟨-, hnarrow⟩ := @limits_filter ⟨.ber, 1, 3⟩ {} rfl (by decide) (by decide) _ _
    obtain ⟨hcases, -, hiff⟩ := hnarrow h
    refine hcases.resolve_left fun hok => ?_
    exact absurd ((hiff twoLevels hw ha).1 hok).1 (by decide)
  · obtain ⟨-, hnarrow⟩ := @limits_filter ⟨.ber, 2, 2⟩ {} rfl (by decide) (by decide) _ _
    obtain ⟨hcases, -, hiff⟩ := hnarrow h
    refine hcases.resolve_left fun hok => ?_
    exact absurd ((hiff twoLevels hw ha).1 hok).2 (by decide)

end Value

end Tlv
