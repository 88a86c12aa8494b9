import Tlv.Error
import Tlv.Octets

/-! # UTF-8

The first octet of a character says how many continuation octets follow, and bounds the second
one so that no character has two spellings and no surrogate has any. A fault is reported with the
number of octets before it, and with the length of the longest start of a character found there
unless the octets end within it.
-/

namespace Tlv.Utf8

/-- What is wrong with the octets at the start of a character. -/
inductive Fault where
  /-- The first `length` octets could start a character, but the next one cannot go on. -/
  | invalid (length : Nat)
  /-- The octets end before the character does. -/
  | incomplete
  deriving DecidableEq, Repr

def isContinuation (b : UInt8) : Bool := 0x80 ≤ b && b < 0xC0

/-- The octet `b` may stand after the first octet `a`. -/
def mayFollow (a b : UInt8) : Bool :=
  (if a = 0xE0 then 0xA0 else if a = 0xF0 then 0x90 else 0x80) ≤ b &&
    b < (if a = 0xED then 0xA0 else if a = 0xF4 then 0x90 else 0xC0)

/-- The character that a first octet with `payload` and continuation octets spell. -/
def assemble (payload : Nat) (tail : List UInt8) : Char :=
  Char.ofNat (tail.foldl (fun n b => n * 64 + b.toNat % 64) payload)

open Octets (length_lt_cons length_lt_cons_of_lt) in
def readChar : (s : Octets) → Except Fault (Char × Rest s)
  | [] => .error .incomplete
  | a :: s =>
    if a < 0x80 then .ok (assemble a.toNat [], ⟨s, length_lt_cons a s⟩)
    else if a < 0xC2 || 0xF5 ≤ a then .error (.invalid 1)
    else
      match s with
      | [] => .error .incomplete
      | b :: s =>
        if !mayFollow a b then .error (.invalid 1)
        else if a < 0xE0 then
          .ok (assemble (a.toNat % 32) [b], ⟨s, length_lt_cons_of_lt a (length_lt_cons b s)⟩)
        else
          match s with
          | [] => .error .incomplete
          | c :: s =>
            if !isContinuation c then .error (.invalid 2)
            else if a < 0xF0 then
              .ok (assemble (a.toNat % 16) [b, c],
                ⟨s, length_lt_cons_of_lt a (length_lt_cons_of_lt b (length_lt_cons c s))⟩)
            else
              match s with
              | [] => .error .incomplete
              | d :: s =>
                if !isContinuation d then .error (.invalid 3)
                else
                  .ok (assemble (a.toNat % 8) [b, c, d],
                    ⟨s, length_lt_cons_of_lt a (length_lt_cons_of_lt b
                      (length_lt_cons_of_lt c (length_lt_cons d s)))⟩)

/-- Reads the characters of `s`, which stands behind `index` octets. -/
def decodeFrom (index : Nat) (s : Octets) : Except Malformation (List Char) :=
  match s with
  | [] => .ok []
  | a :: s =>
    match readChar (a :: s) with
    | .error (.invalid length) => .error (.invalidUtf8 index length)
    | .error .incomplete => .error (.incompleteUtf8 index)
    | .ok (c, ⟨t, _⟩) => (decodeFrom (index + c.utf8Size) t).map (c :: ·)
termination_by s.length
decreasing_by assumption

def decode (s : Octets) : Except Malformation (List Char) := decodeFrom 0 s

def encode (cs : List Char) : Octets := cs.flatMap String.utf8EncodeChar

end Tlv.Utf8
