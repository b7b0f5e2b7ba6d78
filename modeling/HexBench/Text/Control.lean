import HexBench.Text.Hex

set_option autoImplicit false

namespace HexBench.Control

/-- Bell, backspace, form feed, escape and delete. -/
def steering : List Char := [7, 8, 12, 27, 127].map Char.ofNat

/-- A control character of the second block, between the ASCII and the Latin letters. -/
def isSecondary (c : Char) : Bool := 0x80 ≤ c.toNat && c.toNat ≤ 0x9f

def escape (c : Char) : String :=
  if steering.contains c then "\\x" ++ Hex.number 2 c.toNat
  else if isSecondary c then "\\u\x7b" ++ Hex.number 2 c.toNat ++ "\x7d"
  else String.singleton c

def escapeAll (text : String) : String := String.join (text.toList.map escape)

end HexBench.Control
