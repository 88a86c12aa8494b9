import Tlv.Value.Basic

/-! # Display text of values

What a value shows of itself in a line: numbers in decimal, octets as hexadecimal digits after
`#`, text as it is, and the elements of collections in brackets.
-/

namespace Tlv

mutual

def Value.display : Value → String
  | .boolean b => if b then "TRUE" else "FALSE"
  | .integer n | .enumerated n => n.display
  | .bitString b => b.display
  | .octetString s => "#" ++ Octets.hex s
  | .null => "NULL"
  | .oid id => id.text
  | .string s => s.display
  | .sequence vs | .set vs => "[" ++ ", ".intercalate (Value.displays vs) ++ "]"
  | .tagged t => t.display
  | .unknown n _ => (Tag.universal n.number).text

def Tagged.display : Tagged → String
  | .explicit tag base | .implicit tag base => tag.text ++ base.display
  | .raw tag _ c => tag.text ++ c.display

def Contents.display : Contents → String
  | .primitive s => "#" ++ Octets.hex s
  | .constructed vs => "[" ++ ", ".intercalate (Value.displays vs) ++ "]"

def Value.displays : List Value → List String
  | [] => []
  | v :: vs => v.display :: Value.displays vs

end

end Tlv
