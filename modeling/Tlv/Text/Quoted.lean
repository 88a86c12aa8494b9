import Tlv.Text.Glyphless

/-! # Quoted characters

Messages show a single character between apostrophes. What would be invisible or ambiguous there
is written as an escape.
-/

namespace Tlv.Quoted

/-- The number of the character in hexadecimal, between braces after `\u`. -/
def numeric (c : Char) : String :=
  "\\u\x7b" ++ String.ofList (Nat.toDigits 16 c.toNat) ++ "\x7d"

/-- The character as it stands between the apostrophes. -/
def body (c : Char) : String :=
  match c with
  | '\x00' => "\\0"
  | '\t' => "\\t"
  | '\r' => "\\r"
  | '\n' => "\\n"
  | '\'' => "\\'"
  | '\\' => "\\\\"
  | c => if Glyphless.contains c then numeric c else c.toString

def char (c : Char) : String :=
  "'" ++ body c ++ "'"

end Tlv.Quoted
