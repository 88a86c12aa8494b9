import Tlv.ReaderOptions
import Tlv.Length
import Tlv.Value.TypeTable

/-! # Reading values

A value is read from the front of a list of octets: identifier and length, then the contents. Each
level of constructed contents uses up one unit of the depth that the options allow, and
each unit read leaves strictly fewer octets, so reading ends. A failure says how far it got.
-/

namespace Tlv

/-- An error, and the octets that were not consumed when it arose. -/
structure Failure where
  error : Error
  rest : Octets
  deriving DecidableEq, Repr

/-- A reader of an `α` at the front of `s`. -/
abbrev Reading (α : Type) (s : Octets) := Except Failure (α × Rest s)

namespace Reader

variable (options : ReaderOptions)

/-- Checks a declared length against the limit and against the octets at hand. -/
def checkLength (tag : Tag) (n : Nat) (s : Octets) : Result Unit :=
  if options.lengthLimit.toNat < n then
    .error (.limit (.contentLength n options.lengthLimit.toNat))
  else if Octets.hasAtLeast s n then .ok ()
  else .error (.malformed (.truncatedContents tag n s.length))

def header (s : Octets) : Reading (Identifier × Length) s :=
  match Identifier.read options.rule s with
  | .error e => .error ⟨.malformed e, s⟩
  | .ok (identifier, ⟨t, ht⟩) =>
    match Length.read options.rule t with
    | .error e => .error ⟨.malformed e, t⟩
    | .ok (.indefinite, ⟨u, hu⟩) => .ok ((identifier, .indefinite), ⟨u, Nat.lt_trans hu ht⟩)
    | .ok (.definite n, ⟨u, hu⟩) =>
      match checkLength options identifier.tag n u with
      | .error e => .error ⟨e, u⟩
      | .ok () => .ok ((identifier, .definite n), ⟨u, Nat.lt_trans hu ht⟩)

variable (one : (s : Octets) → Reading Value s)

/-- Reads values with `one` until the octets are used up. -/
def values (s : Octets) : Except Failure (List Value) :=
  match s with
  | [] => .ok []
  | b :: s =>
    match one (b :: s) with
    | .error e => .error e
    | .ok (v, ⟨t, _⟩) => (values t).map (v :: ·)
termination_by s.length
decreasing_by assumption

/-- Reads values with `one` until the end-of-contents marker, and gives what stands behind it. -/
def valuesToEnd (s : Octets) :
    Except Failure (List Value × { t : Octets // t.length ≤ s.length }) :=
  match s with
  | 0x00 :: 0x00 :: s => .ok ([], ⟨s, by simp only [List.length_cons]; omega⟩)
  | a :: b :: s =>
    match one (a :: b :: s) with
    | .error e => .error e
    | .ok (v, ⟨t, ht⟩) =>
      match valuesToEnd t with
      | .error e => .error e
      | .ok (vs, ⟨u, hu⟩) => .ok (v :: vs, ⟨u, Nat.le_trans hu (Nat.le_of_lt ht)⟩)
  | s => .error ⟨.malformed .missingEndOfContents, s⟩
termination_by s.length
decreasing_by exact ht

/-- Reads the contents behind a header. Elements are read by `nested`, which is given the octets
that their positions count from, and is missing where no deeper level is allowed. A failure inside
definite contents leaves what stands behind them; one inside indefinite contents leaves them all,
since their end is not known. -/
def contents (nested : Option (Octets → (s : Octets) → Reading Value s))
    (identifier : Identifier) (length : Length) (s : Octets) :
    Except Failure (Contents × { t : Octets // t.length ≤ s.length }) :=
  match identifier.constructed, length, nested with
  | false, .definite n, _ =>
    .ok (.primitive (s.take n), ⟨s.drop n, by simp only [List.length_drop]; omega⟩)
  | false, .indefinite, _ => .error ⟨.malformed (.indefinitePrimitive identifier.tag), s⟩
  | true, .definite n, none => .error ⟨.limit (.depth options.depthLimit.toNat), s.drop n⟩
  | true, .indefinite, none => .error ⟨.limit (.depth options.depthLimit.toNat), s⟩
  | true, .definite n, some nested =>
    match values (nested (s.take n)) (s.take n) with
    | .error e => .error ⟨e.error, s.drop n⟩
    | .ok vs => .ok (.constructed vs, ⟨s.drop n, by simp only [List.length_drop]; omega⟩)
  | true, .indefinite, some nested =>
    match valuesToEnd (nested s) s with
    | .error e => .error ⟨e.error, s⟩
    | .ok (vs, rest) => .ok (.constructed vs, rest)

/-- Reads one value. Positions in messages count from the start of `buffer`, which ends with
`s`. -/
def unit (nested : Option (Octets → (s : Octets) → Reading Value s)) (buffer s : Octets) :
    Reading Value s :=
  match header options s with
  | .error e => .error e
  | .ok ((identifier, length), ⟨t, ht⟩) =>
    if h : identifier.tag = .endOfContents then
      .error ⟨.malformed (.unexpectedEndOfContents (buffer.length - s.length)), t⟩
    else
      match contents options nested identifier length t with
      | .error e => .error e
      | .ok (contents, ⟨u, hu⟩) =>
        match Value.construct identifier.tag h options.rule contents with
        | .error e => .error ⟨e, u⟩
        | .ok v => .ok (v, ⟨u, Nat.lt_of_le_of_lt hu ht⟩)

/-- Reads one value of at most `depth` levels. -/
def value : (depth : Nat) → (buffer s : Octets) → Reading Value s
  | 0 => unit options none
  | depth + 1 => unit options (some (value depth))

end Reader

/-- Reads the one value that the octets are. -/
def Value.ofOctets (options : ReaderOptions) (s : Octets) : Result Value :=
  match Reader.value options options.depthLimit.toNat s s with
  | .error e => .error e.error
  | .ok (v, ⟨t, _⟩) => if t = [] then .ok v else .error (.malformed (.trailingOctets t.length))

/-- As `Value.ofOctets`, under BER and the default limits. -/
def Value.ofBer (s : Octets) : Result Value := Value.ofOctets {} s

def UniversalType.ofOctets (u : UniversalType) (s : Octets) : Result Value := do
  (← Value.ofBer s).expectUniversal u.number

end Tlv
