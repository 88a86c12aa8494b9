import Tlv.Proofs.Transcoding

/-! # Values inside values

Every value in a received one has been received too. What is read from a unit takes no more room
than the unit: each value in it, however deep, stands for a header of two octets or more, and the
contents octets that are kept stood behind those headers, segments of strings included.
-/

namespace Tlv

mutual

/-- The values inside a value, at any depth. -/
def Value.inner : Value → List Value
  | .sequence vs | .set vs => Value.innerAll vs
  | .tagged t => t.inner
  | .unknown _ c => c.inner
  | _ => []

def Tagged.inner : Tagged → List Value
  | .explicit _ base | .implicit _ base => base :: base.inner
  | .raw _ _ c => c.inner

def Contents.inner : Contents → List Value
  | .primitive _ => []
  | .constructed vs => Value.innerAll vs

def Value.innerAll : List Value → List Value
  | [] => []
  | v :: vs => v :: v.inner ++ Value.innerAll vs

end

def Contents.stored : Contents → Nat
  | primitive s => s.length
  | constructed _ => 0

namespace Value

def subvalues (v : Value) : List Value := v :: v.inner

/-- How many contents octets the value itself keeps, without those of the values inside it. The
octet that counts unused bits is no part of a bit string's data. -/
def stored : Value → Nat
  | boolean _ => 1
  | integer n | enumerated n => n.octets.length
  | bitString b => b.data.length
  | octetString s => s.length
  | oid id => id.octets.length
  | string s => s.octets.length
  | tagged (.raw _ _ c) | unknown _ c => c.stored
  | null | sequence _ | set _ | tagged (.explicit _ _) | tagged (.implicit _ _) => 0

/-- Two octets for each of the values, and the contents octets that they keep. -/
def room (vs : List Value) : Nat := 2 * vs.length + (vs.map stored).sum

@[simp] theorem room_nil : room [] = 0 := rfl

@[simp] theorem room_cons (v : Value) (vs : List Value) :
    room (v :: vs) = 2 + v.stored + room vs := by
  simp [room]
  omega

@[simp] theorem room_append (vs ws : List Value) : room (vs ++ ws) = room vs + room ws := by
  simp [room]
  omega

end Value

section

variable {rule : Rule} {w : Value}

mutual

theorem Value.Received.of_mem_inner : ∀ {v : Value}, v.Received rule → w ∈ v.inner →
    w.Received rule
  | .sequence _, h, hw | .set _, h, hw => Value.AllReceived.of_mem_innerAll h hw
  | .tagged (.raw _ _ _), h, hw => Contents.Received.of_mem_inner h.2.2 hw
  | .tagged (.explicit _ _), h, _ | .tagged (.implicit _ _), h, _ => h.elim
  | .unknown _ _, h, hw => Contents.Received.of_mem_inner h hw
  | .boolean _, _, hw | .integer _, _, hw | .bitString _, _, hw | .octetString _, _, hw
  | .null, _, hw | .oid _, _, hw | .enumerated _, _, hw | .string _, _, hw => by cases hw

theorem Contents.Received.of_mem_inner : ∀ {c : Contents}, c.Received rule → w ∈ c.inner →
    w.Received rule
  | .primitive _, _, hw => by cases hw
  | .constructed _, h, hw => Value.AllReceived.of_mem_innerAll h hw

theorem Value.AllReceived.of_mem_innerAll : ∀ {vs : List Value}, Value.AllReceived rule vs →
    w ∈ Value.innerAll vs → w.Received rule
  | [], _, hw => by cases hw
  | v :: vs, h, hw => by
    rcases List.mem_append.1 hw with hw | hw
    · rcases List.mem_cons.1 hw with rfl | hw
      · exact h.1
      · exact Value.Received.of_mem_inner h.1 hw
    · exact Value.AllReceived.of_mem_innerAll h.2 hw

end

end

namespace Value

variable {rule : Rule} {v w : Value} {vs : List Value}

theorem Received.of_mem (h : v.Received rule) (hw : w ∈ v.subvalues) : w.Received rule := by
  rcases List.mem_cons.1 hw with rfl | hw
  · exact h
  · exact h.of_mem_inner hw

theorem Received.exists_raw_of_mem {t : Tagged} (h : v.Received rule)
    (ht : tagged t ∈ v.subvalues) : ∃ tag c, t = .raw tag rule c ∧ c.Received rule := by
  have ht' : t.Received rule := h.of_mem ht
  cases t with
  | raw tag r c =>
    obtain ⟨-, rfl, hc⟩ := ht'
    exact ⟨tag, c, rfl, hc⟩
  | _ => exact ht'.elim

end Value

/-! ## The room that values take -/

theorem Header.length_add_two_le_frame (h : Header) (constructed : Bool) (s : Octets) :
    s.length + 2 ≤ (h.frame constructed s).length := by
  obtain ⟨a, i, hi⟩ : ∃ a i, h.identifierOctets constructed = a :: i := by
    unfold identifierOctets Identifier.octets
    split
    · exact ⟨_, _, rfl⟩
    · split <;> exact ⟨_, _, rfl⟩
  obtain ⟨b, l, hl⟩ := h.length.octets_eq s.length
  rw [frame, hi, hl]
  split <;> simp <;> omega

theorem BitString.length_join {bs : List BitString} {b : BitString} (h : join bs = .ok b) :
    b.data.length = (bs.map fun a => a.data.length).sum := by
  fun_induction join bs generalizing b with
  | case1 =>
    cases h
    rfl
  | case2 a =>
    cases h
    simp
  | case3 a b' bs _ ih =>
    obtain ⟨c, hc, rfl⟩ := except_map_eq_ok_iff.1 h
    simp [append, ih hc]
  | case4 => cases h

namespace Value

variable {rule : Rule} {v : Value} {vs : List Value}

theorem length_joinOctets_le {s : Octets} (h : joinOctets vs = .ok s) :
    s.length ≤ room (innerAll vs) := by
  induction vs generalizing s with
  | nil =>
    cases h
    exact Nat.zero_le _
  | cons v vs ih =>
    cases v with
    | octetString a =>
      obtain ⟨b, hb, rfl⟩ := except_map_eq_ok_iff.1 h
      have hle := ih hb
      simp [innerAll, inner, stored]
      omega
    | _ => cases h

theorem length_bitSegments_le {bs : List BitString} (h : bitSegments vs = .ok bs) :
    (bs.map fun b => b.data.length).sum ≤ room (innerAll vs) := by
  induction vs generalizing bs with
  | nil =>
    cases h
    exact Nat.zero_le _
  | cons v vs ih =>
    cases v with
    | bitString a =>
      obtain ⟨bs, hb, rfl⟩ := except_map_eq_ok_iff.1 h
      have hle := ih hb
      simp [innerAll, inner, stored]
      omega
    | _ => cases h

end Value

def Contents.room (c : Contents) : Nat := c.stored + Value.room c.inner

namespace Value

variable {rule : Rule} {v : Value} {c : Contents}

/-- A type keeps no more than the contents give, joined segments included. -/
theorem room_le_of_gives {u : UniversalType} (h : u.Gives rule c v) :
    v.stored + room v.inner ≤ c.room := by
  cases h with
  | bitSegments _ hs hb =>
    have hle := length_bitSegments_le hs
    rw [← BitString.length_join hb] at hle
    simpa [stored, inner, Contents.room, Contents.stored, Contents.inner] using hle
  | octetSegments _ hs | stringSegments _ _ hs =>
    have hle := length_joinOctets_le hs
    simpa [stored, inner, Contents.room, Contents.stored, Contents.inner] using hle
  | bitString =>
    simp [stored, inner, Contents.room, Contents.stored, Contents.inner, BitString.contents]
  | _ => simp [stored, inner, Contents.room, Contents.stored, Contents.inner]

theorem room_le_of_ofContents {tag : Tag} {hn : tag ≠ .endOfContents}
    (h : ofContents tag hn rule c = .ok v) : room v.subvalues ≤ c.room + 2 := by
  have hle : v.stored + room v.inner ≤ c.room := by
    rcases ofContents_cases h with ⟨-, rfl⟩ | ⟨n, -, rfl⟩ | ⟨u, -, hu⟩
    · exact Nat.le_refl _
    · exact Nat.le_refl _
    · exact room_le_of_gives hu
  rw [subvalues, room_cons]
  omega

theorem room_innerAll_le {ws : List Wire} {vs : List Value}
    (h : List.Forall₂ (fun w v => room v.subvalues ≤ w.octets.length) ws vs) :
    room (innerAll vs) ≤ (Wire.joined ws).length := by
  induction h with
  | nil => exact Nat.zero_le _
  | cons hw _ ih =>
    rw [innerAll, Wire.joined, List.length_append, room_append]
    exact Nat.add_le_add hw ih

theorem room_le_of_denotes {w : Wire} (h : w.Denotes rule v) :
    room v.subvalues ≤ w.octets.length := by
  refine h.induct ?_ ?_
  · intro h s v _ hv
    have hle : room v.subvalues ≤ (Contents.primitive s).room + 2 := room_le_of_ofContents hv
    exact Nat.le_trans hle (h.length_add_two_le_frame false s)
  · intro h ws vs v _ hs hv
    have hle : room v.subvalues ≤ (Contents.constructed vs).room + 2 := room_le_of_ofContents hv
    have hvs : (Contents.constructed vs).room ≤ (Wire.joined ws).length := by
      simpa [Contents.room, Contents.stored, Contents.inner] using room_innerAll_le hs
    have hlen := h.length_add_two_le_frame true (Wire.joined ws)
    rw [Wire.octets]
    omega

end Value

end Tlv
