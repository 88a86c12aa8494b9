import Mathlib.Data.List.Forall2
import Tlv.Proofs.Header
import Tlv.Value.Encoding

/-! # Units as they are spelled

The octets of a unit are a tree: a header in one of its forms, around octets or around further
units. What the tree stands for is settled by the tags and contents alone. The main fact,
`Wire.ofOctets_octets`, is that the reader gives back just that, whatever the forms are, as long as
the rule admits them and the limits of the reader are respected.
-/

namespace Tlv

theorem forall₂_imp_of_mem {α β : Type} {R S : α → β → Prop} {xs : List α} {ys : List β}
    (h : List.Forall₂ R xs ys) (hi : ∀ x ∈ xs, ∀ y ∈ ys, R x y → S x y) : List.Forall₂ S xs ys := by
  induction h with
  | nil => exact .nil
  | @cons x y xs ys hr _ ih =>
    refine .cons (hi x List.mem_cons_self y List.mem_cons_self hr) (ih fun x hx y hy => ?_)
    exact hi x (List.mem_cons_of_mem _ hx) y (List.mem_cons_of_mem _ hy)

theorem forall_mem_of_forall₂_left {α β : Type} {p : α → Prop} {xs : List α} {ys : List β}
    (h : List.Forall₂ (fun x _ => p x) xs ys) : ∀ x ∈ xs, p x := by
  induction h with
  | nil => exact List.forall_mem_nil _
  | cons hp _ ih => exact List.forall_mem_cons.2 ⟨hp, ih⟩

theorem forall_mem_of_forall₂_right {α β : Type} {p : β → Prop} {xs : List α} {ys : List β}
    (h : List.Forall₂ (fun _ y => p y) xs ys) : ∀ y ∈ ys, p y :=
  forall_mem_of_forall₂_left h.flip

inductive Wire where
  | primitive (header : Header) (contents : Octets)
  | constructed (header : Header) (elements : List Wire)

namespace Wire

mutual

def octets : Wire → Octets
  | primitive h s => h.frame false s
  | constructed h ws => h.frame true (joined ws)

def joined : List Wire → Octets
  | [] => []
  | w :: ws => w.octets ++ joined ws

end

mutual

def depth : Wire → Nat
  | primitive _ _ => 0
  | constructed _ ws => depths ws + 1

def depths : List Wire → Nat
  | [] => 0
  | w :: ws => max w.depth (depths ws)

end

mutual

/-- The greatest length of contents that is declared; an indefinite length declares none. -/
def longest : Wire → Nat
  | primitive _ s => s.length
  | constructed h ws =>
    max (if h.length = .indefinite then 0 else (joined ws).length) (longests ws)

def longests : List Wire → Nat
  | [] => 0
  | w :: ws => max w.longest (longests ws)

end

mutual

/-- All headers are in forms that the rule admits. -/
def Admitted (rule : Rule) : Wire → Prop
  | primitive h s => h.Admits rule s.length ∧ h.length ≠ .indefinite
  | constructed h ws => h.Admits rule (joined ws).length ∧ AllAdmitted rule ws

def AllAdmitted (rule : Rule) : List Wire → Prop
  | [] => True
  | w :: ws => w.Admitted rule ∧ AllAdmitted rule ws

end

mutual

instance decidableAdmitted (rule : Rule) : (w : Wire) → Decidable (w.Admitted rule)
  | primitive _ _ => inferInstanceAs (Decidable (_ ∧ _ ≠ _))
  | constructed _ ws =>
    have := decidableAllAdmitted rule ws
    inferInstanceAs (Decidable (_ ∧ _))

instance decidableAllAdmitted (rule : Rule) : (ws : List Wire) → Decidable (AllAdmitted rule ws)
  | [] => .isTrue trivial
  | w :: ws =>
    have := decidableAdmitted rule w
    have := decidableAllAdmitted rule ws
    inferInstanceAs (Decidable (_ ∧ _))

end

def Within (options : ReaderOptions) (w : Wire) : Prop :=
  w.depth ≤ options.depthLimit.toNat ∧ w.longest ≤ options.lengthLimit.toNat

/-- The value that a unit stands for under a rule. The forms of headers have no part in it. -/
inductive Denotes (rule : Rule) : Wire → Value → Prop where
  | primitive {h : Header} {s : Octets} {v : Value} (hn : h.tag ≠ .endOfContents)
      (hv : Value.ofContents h.tag hn rule (.primitive s) = .ok v) : Denotes rule (.primitive h s) v
  | constructed {h : Header} {ws : List Wire} {vs : List Value} {v : Value}
      (hn : h.tag ≠ .endOfContents) (hs : List.Forall₂ (Denotes rule) ws vs)
      (hv : Value.ofContents h.tag hn rule (.constructed vs) = .ok v) :
      Denotes rule (.constructed h ws) v

def header : Wire → Header
  | primitive h _ => h
  | constructed h _ => h

/-- The contents that a unit holds, its elements being read as what they stand for. -/
inductive Holds (rule : Rule) : Wire → Contents → Prop where
  | primitive {h : Header} {s : Octets} : Holds rule (.primitive h s) (.primitive s)
  | constructed {h : Header} {ws : List Wire} {vs : List Value}
      (hs : List.Forall₂ (Denotes rule) ws vs) :
      Holds rule (.constructed h ws) (.constructed vs)

variable {rule : Rule} {w : Wire} {ws : List Wire} {n : Nat}

theorem Holds.denotes {c : Contents} {v : Value} {tag : Tag} (hc : w.Holds rule c)
    (ht : w.header.tag = tag) (hn : tag ≠ .endOfContents)
    (hv : Value.ofContents tag hn rule c = .ok v) : w.Denotes rule v := by
  subst ht
  cases hc with
  | primitive => exact .primitive hn hv
  | constructed hs => exact .constructed hn hs hv

theorem depths_le_iff : depths ws ≤ n ↔ ∀ w ∈ ws, w.depth ≤ n := by
  induction ws with
  | nil => simp [depths]
  | cons w ws ih => simp [depths, ih]

theorem longests_le_iff : longests ws ≤ n ↔ ∀ w ∈ ws, w.longest ≤ n := by
  induction ws with
  | nil => simp [longests]
  | cons w ws ih => simp [longests, ih]

theorem allAdmitted_iff : AllAdmitted rule ws ↔ ∀ w ∈ ws, w.Admitted rule := by
  induction ws with
  | nil => simp [AllAdmitted]
  | cons w ws ih => simp [AllAdmitted, ih]

mutual

theorem depth_le_length : ∀ w : Wire, w.depth ≤ w.octets.length
  | primitive _ _ => Nat.zero_le _
  | constructed h ws =>
    Nat.succ_le_of_lt (Nat.lt_of_le_of_lt (depths_le_length ws) (h.length_lt_frame true _))

theorem depths_le_length : ∀ ws : List Wire, depths ws ≤ (joined ws).length
  | [] => Nat.le_refl 0
  | w :: ws => by
    have hw := w.depth_le_length
    have hws := depths_le_length ws
    rw [depths, joined, List.length_append]
    omega

end

mutual

theorem longest_le_length : ∀ w : Wire, w.longest ≤ w.octets.length
  | primitive h s => Nat.le_of_lt (h.length_lt_frame false s)
  | constructed h ws => by
    have hws := longests_le_length ws
    have hl := h.length_lt_frame true (joined ws)
    rw [longest, octets]
    split <;> omega

theorem longests_le_length : ∀ ws : List Wire, longests ws ≤ (joined ws).length
  | [] => Nat.le_refl 0
  | w :: ws => by
    have hw := w.longest_le_length
    have hws := longests_le_length ws
    rw [longests, joined, List.length_append]
    omega

end

/-- Every unit has two octets or more, and does not begin like an end-of-contents marker. -/
theorem octets_append_eq (ha : w.Admitted rule) (t : Octets) :
    ∃ a b s, w.octets ++ t = a :: b :: s ∧ a ≠ 0 := by
  have frame_eq {h : Header} {n : Nat} (ha : h.Admits rule n) (constructed : Bool) (s : Octets) :
      ∃ a b u, h.frame constructed s ++ t = a :: b :: u ∧ a ≠ 0 := by
    obtain ⟨a, u, hu, ha0⟩ := h.identifierOctets_eq ha.1 constructed
    obtain ⟨b, l, hl⟩ := h.length.octets_eq s.length
    rw [Header.frame, hu, hl]
    cases u <;> exact ⟨_, _, _, rfl, ha0⟩
  cases w with
  | primitive h s => exact frame_eq ha.1 false s
  | constructed h ws => exact frame_eq ha.1 true (joined ws)

end Wire

namespace Reader

variable {options : ReaderOptions}

theorem reads_header {h : Header} {s : Octets} (ha : h.Admits options.rule s.length)
    (hl : h.length ≠ .indefinite → s.length ≤ options.lengthLimit.toNat) (constructed : Bool)
    (t : Octets) :
    Reads (header options (h.frame constructed s ++ t))
      (⟨h.tag, constructed⟩, h.length.length s.length)
      ((if h.length = .indefinite then s ++ Encoding.endMarker else s) ++ t) := by
  obtain ⟨_, hi⟩ := h.reads_identifierOctets ha constructed (h.length.octets s.length ++
    ((if h.length = .indefinite then s ++ Encoding.endMarker else s) ++ t))
  obtain ⟨_, hr⟩ := LengthForm.reads_octets ha.2.2
    (fun hne => Nat.lt_of_le_of_lt (hl hne) options.lengthLimit.toNat_lt)
    ((if h.length = .indefinite then s ++ Encoding.endMarker else s) ++ t)
  rw [Header.frame, List.append_assoc, List.append_assoc, header]
  simp only [hi, hr]
  by_cases hf : h.length = .indefinite
  · simp only [hf, LengthForm.length]
    exact ⟨_, rfl⟩
  · have hcheck : checkLength options h.tag s.length (s ++ t) = .ok () := by
      rw [checkLength, if_neg (Nat.not_lt.2 (hl hf)), if_pos]
      rw [Octets.hasAtLeast_iff, List.length_append]
      omega
    simp only [hf, LengthForm.length_of_ne hf, if_false, hcheck]
    exact ⟨_, rfl⟩

variable {nested : Option (Octets → (s : Octets) → Reading Value s)}

theorem reads_unit {i : Identifier} {l : Length} {c : Contents} {v : Value} {buffer s t u : Octets}
    (hh : Reads (header options s) (i, l) t) (hn : i.tag ≠ .endOfContents)
    (hc : ∃ h, contents options nested i l t = .ok (c, ⟨u, h⟩))
    (hv : Value.ofContents i.tag hn options.rule c = .ok v) :
    Reads (unit options nested buffer s) v u := by
  obtain ⟨_, hh⟩ := hh
  obtain ⟨_, hc⟩ := hc
  rw [unit, hh]
  simp only [hn, dif_neg, not_false_eq_true, hc, Value.construct_eq_ok_iff.2 hv]
  exact ⟨_, rfl⟩

variable {one : (s : Octets) → Reading Value s} {ws : List Wire} {vs : List Value}

theorem values_joined
    (h : List.Forall₂ (fun w v => w.Admitted options.rule ∧ ∀ t, Reads (one (w.octets ++ t)) v t)
      ws vs) : values one (Wire.joined ws) = .ok vs := by
  induction h with
  | nil => rw [Wire.joined, values]
  | @cons w v ws vs hw _ ih =>
    obtain ⟨a, b, s, hs, -⟩ := Wire.octets_append_eq hw.1 (Wire.joined ws)
    have hr := hw.2 (Wire.joined ws)
    rw [hs] at hr
    obtain ⟨_, hr⟩ := hr
    rw [Wire.joined, hs, values]
    simp only [hr, ih]
    rfl

theorem valuesToEnd_joined
    (h : List.Forall₂ (fun w v => w.Admitted options.rule ∧ ∀ t, Reads (one (w.octets ++ t)) v t)
      ws vs) (t : Octets) :
    ∃ ht, valuesToEnd one (Wire.joined ws ++ Encoding.endMarker ++ t) = .ok (vs, ⟨t, ht⟩) := by
  induction h with
  | nil =>
    rw [Wire.joined, Encoding.endMarker, List.nil_append, List.cons_append, List.cons_append,
      valuesToEnd]
    exact ⟨_, rfl⟩
  | @cons w v ws vs hw _ ih =>
    obtain ⟨a, b, s, hs, ha⟩ :=
      Wire.octets_append_eq hw.1 (Wire.joined ws ++ Encoding.endMarker ++ t)
    have hr := hw.2 (Wire.joined ws ++ Encoding.endMarker ++ t)
    rw [hs] at hr
    obtain ⟨hlt, hr⟩ := hr
    obtain ⟨hle, ih⟩ := ih
    rw [Wire.joined, List.append_assoc, List.append_assoc, ← List.append_assoc (Wire.joined ws), hs,
      valuesToEnd]
    · simp only [hr]
      rw [ih]
      exact ⟨Nat.le_trans hle (Nat.le_of_lt hlt), rfl⟩
    · exact fun ha0 _ => ha ha0

end Reader

namespace Wire

variable {options : ReaderOptions} {w : Wire} {ws : List Wire} {v : Value} {d : Nat}

theorem reads_primitive {h : Header} {s : Octets}
    (ha : (primitive h s).Admitted options.rule) (hl : s.length ≤ options.lengthLimit.toNat)
    (hv : (primitive h s).Denotes options.rule v) (buffer t : Octets) :
    Reads (Reader.value options d buffer ((primitive h s).octets ++ t)) v t := by
  obtain ⟨nested, hd⟩ : ∃ nested, Reader.value options d = Reader.unit options nested := by
    cases d <;> exact ⟨_, rfl⟩
  cases hv with
  | primitive hn hv =>
    have hh := Reader.reads_header ha.1 (fun _ => hl) false t
    rw [if_neg ha.2, LengthForm.length_of_ne ha.2] at hh
    rw [hd, octets]
    refine Reader.reads_unit hh hn ⟨?_, ?_⟩ hv
    · simp
    · simp [Reader.contents]

theorem reads_constructed {h : Header} {vs : List Value}
    (ha : (constructed h ws).Admitted options.rule)
    (hl : (constructed h ws).longest ≤ options.lengthLimit.toNat)
    (hs : ∀ buffer, List.Forall₂ (fun w v => w.Admitted options.rule ∧
      ∀ t, Reads (Reader.value options d buffer (w.octets ++ t)) v t) ws vs)
    (hn : h.tag ≠ .endOfContents)
    (hv : Value.ofContents h.tag hn options.rule (.constructed vs) = .ok v) (buffer t : Octets) :
    Reads (Reader.value options (d + 1) buffer ((constructed h ws).octets ++ t)) v t := by
  rw [longest, Nat.max_le] at hl
  have hlen (hf : h.length ≠ .indefinite) : (joined ws).length ≤ options.lengthLimit.toNat := by
    simpa only [if_neg hf] using hl.1
  have hh := Reader.reads_header ha.1 hlen true t
  rw [Reader.value, octets]
  by_cases hf : h.length = .indefinite
  · rw [if_pos hf, hf, LengthForm.length] at hh
    obtain ⟨hle, hr⟩ := Reader.valuesToEnd_joined
      (hs (joined ws ++ Encoding.endMarker ++ t)) t
    refine Reader.reads_unit hh hn ⟨hle, ?_⟩ hv
    simp only [Reader.contents, hr]
  · rw [if_neg hf, LengthForm.length_of_ne hf] at hh
    refine Reader.reads_unit hh hn ⟨?_, ?_⟩ hv
    · simp
    · simp [Reader.contents, Reader.values_joined (hs (joined ws))]

/-- A unit is read as the value it stands for, whatever follows it. -/
theorem reads_value (ha : w.Admitted options.rule) (hd : w.depth ≤ d)
    (hl : w.longest ≤ options.lengthLimit.toNat) (hv : w.Denotes options.rule v)
    (buffer t : Octets) : Reads (Reader.value options d buffer (w.octets ++ t)) v t := by
  induction d generalizing w v buffer t with
  | zero =>
    cases w with
    | primitive h s => exact reads_primitive ha hl hv buffer t
    | constructed h ws => exact absurd hd (by rw [depth]; omega)
  | succ d ih =>
    cases w with
    | primitive h s => exact reads_primitive ha hl hv buffer t
    | constructed h ws =>
      cases hv with
      | constructed hn hs hv =>
        have had := allAdmitted_iff.1 ha.2
        have hds := depths_le_iff.1 (Nat.le_of_succ_le_succ hd)
        have hls := longests_le_iff.1 (Nat.le_trans (Nat.le_max_right _ _) hl)
        refine reads_constructed ha hl (fun b => ?_) hn hv buffer t
        refine forall₂_imp_of_mem hs fun w hw v _ hden => ⟨had w hw, fun t => ?_⟩
        exact ih (had w hw) (hds w hw) (hls w hw) hden b t

end Wire

theorem Wire.ofOctets_octets {options : ReaderOptions} {w : Wire} {v : Value}
    (ha : w.Admitted options.rule) (hw : w.Within options) (hv : w.Denotes options.rule v) :
    Value.ofOctets options w.octets = .ok v := by
  have hr := w.reads_value ha hw.1 hw.2 hv w.octets []
  rw [List.append_nil] at hr
  obtain ⟨_, hr⟩ := hr
  rw [Value.ofOctets, hr]
  rfl

end Tlv
