set_option autoImplicit false

namespace HexBench.Leading

def isBlank (c : Char) : Bool := c == ' ' || ('\t' ≤ c && c ≤ '\r')

def isDigit (c : Char) : Bool := '0' ≤ c && c ≤ '9'

def magnitude (text : List Char) : Nat :=
  (text.takeWhile isDigit).foldl (fun n c => 10 * n + (c.toNat - '0'.toNat)) 0

/-- A magnitude of more than 64 bits gives the largest number, whatever its sign. Below that, a
minus sign counts back from zero, around the end of the 64 bits. -/
def signed (negative : Bool) (n : Nat) : UInt64 :=
  if UInt64.size ≤ n then -1 else if negative then -n.toUInt64 else n.toUInt64

/-- The number that a text starts with: blanks, a sign, and the longest run of digits. A text
without such a start is zero. -/
def number (text : String) : UInt64 :=
  match text.toList.dropWhile isBlank with
  | '-' :: rest => signed true (magnitude rest)
  | '+' :: rest => signed false (magnitude rest)
  | rest => signed false (magnitude rest)

end HexBench.Leading
