import HexBench.Text.Hex

set_option autoImplicit false

namespace HexBench.Quoted

def isInvisible (b : UInt8) : Bool := b < 32 || (127 ≤ b && b ≤ 160) || b == 173

/-- The characters between the quotes. A double quote needs no escape. -/
def escape (b : UInt8) : String :=
  if b = 0 then "\\0"
  else if b = 9 then "\\t"
  else if b = 10 then "\\n"
  else if b = 13 then "\\r"
  else if b = 39 || b = 92 then "\\" ++ String.singleton (Char.ofUInt8 b)
  else if isInvisible b then "\\u\x7b" ++ Hex.number 1 b.toNat ++ "\x7d"
  else String.singleton (Char.ofUInt8 b)

def char (b : UInt8) : String := "\x27" ++ escape b ++ "\x27"

end HexBench.Quoted
