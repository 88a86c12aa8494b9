/-! # Encoding rules

One value model has three wire forms.

* BER is permissive: lengths may be indefinite or longer than needed, strings may come in
  segments. It is written with indefinite lengths on constructed values.
* DER is canonical: shortest definite lengths, SET elements sorted by their encodings.
* DL writes definite lengths as DER does, but keeps the order of SET elements.
-/

namespace Tlv

inductive Rule where
  | ber
  | der
  | dl
  deriving DecidableEq, Repr, Inhabited

namespace Rule

def all : List Rule := [.ber, .der, .dl]

def name : Rule → String
  | .ber => "BER"
  | .der => "DER"
  | .dl => "DL"

def ofName? (text : String) : Option Rule :=
  all.find? (·.name == text)

/-- The word that stands for the rule in stored options. -/
def keyword : Rule → String
  | .ber => "Ber"
  | .der => "Der"
  | .dl => "Dl"

def ofKeyword? (text : String) : Option Rule :=
  all.find? (·.keyword == text)

/-- A constructed value may run until an end-of-contents marker. -/
def indefiniteLengths (r : Rule) : Bool := r == .ber

/-- Tags and lengths must use as few octets as they can. -/
def minimalForms (r : Rule) : Bool := r == .der

theorem indefiniteLengths_eq_true_iff {r : Rule} : r.indefiniteLengths = true ↔ r = .ber :=
  beq_iff_eq

theorem minimalForms_eq_false_iff {r : Rule} : r.minimalForms = false ↔ r ≠ .der :=
  beq_eq_false_iff_ne

/-- SET elements are written in the order of their encodings. -/
def sortedSets (r : Rule) : Bool := r == .der

/-- A string may be split into constructed segments. -/
def segmentedStrings (r : Rule) : Bool := r == .ber

end Rule

end Tlv
