import Mathlib.Data.Nat.Log
import Tlv.Proofs.Numeral
import Tlv.Value.Encoding

/-! # Predicted widths

The number of octets of an encoding is computed from its tree without writing it. Numerals count
the bits of their number, a frame adds what stands around its contents, and so the prediction is
exact for every encoding and every value.
-/

namespace Tlv

namespace BigEndian

theorem width_of_pos {n : Nat} (h : 0 < n) : width n = width (n / 256) + 1 := by
  have hn : n ≠ 0 := by omega
  simp only [width, Nat.log2_eq_log_two, if_neg hn]
  split
  · have hlog : Nat.log 2 n < 8 := Nat.log_lt_of_lt_pow hn (by omega)
    omega
  · have hlog : Nat.log 2 n = Nat.log 2 (n / 256) + 8 := by
      have hle : 8 ≤ Nat.log 2 n := Nat.le_log_of_pow_le (by decide) (by omega)
      have hdiv : Nat.log 2 (n / 2 ^ 8) = Nat.log 2 n - 8 := Nat.log_div_base_pow 2 n 8
      rw [show n / 256 = n / 2 ^ 8 from rfl]
      omega
    omega

theorem length_octets (n : Nat) : (octets n).length = width n := by
  induction n using Nat.strongRecOn with
  | _ n ih =>
    rcases Nat.eq_zero_or_pos n with rfl | hn
    · simp [width]
    · have hlt : n / 256 < n := Nat.div_lt_self hn (by decide)
      simp [octets_of_pos hn, width_of_pos hn, ih _ hlt]

end BigEndian

theorem Length.length_octets (n : Nat) : (octets n).length = width n := by
  unfold octets width
  split
  · rfl
  · simp [BigEndian.length_octets, Nat.add_comm]

theorem Identifier.length_octets (i : Identifier) : i.octets.length = i.width := by
  unfold octets width
  split
  · rfl
  · simp [Base128.length_octets, Nat.add_comm]

namespace Encoding

theorem length_frame (i : Identifier) (indefinite : Bool) (s : Octets) :
    (frame i indefinite s).length = framedWidth i indefinite s.length := by
  cases indefinite with
  | true =>
    simp [frame, framedWidth, Identifier.length_octets, endMarker]
    omega
  | false => simp [frame, framedWidth, Identifier.length_octets, Length.length_octets]

mutual

theorem length_octets : ∀ e : Encoding, e.octets.length = e.width
  | primitive tag s => by
    simp only [octets, width, length_frame]
  | constructed tag indefinite es => by
    simp only [octets, width, length_frame, length_joined es]

theorem length_joined : ∀ es : List Encoding, (joined es).length = joinedWidth es
  | [] => rfl
  | e :: es => by
    simp only [joined, joinedWidth, List.length_append, length_octets e, length_joined es]

end

end Encoding

theorem Value.length_octets (rule : Rule) (v : Value) : (v.octets rule).length = v.width rule :=
  (v.encoding rule).length_octets

end Tlv
