import HexBench.Text.Bytes

set_option autoImplicit false

namespace HexBench.Hex

def digit? (c : UInt8) : Option UInt8 :=
  if 48 ≤ c ∧ c ≤ 57 then some (c - 48)
  else if 65 ≤ c ∧ c ≤ 70 then some (c - 55)
  else if 97 ≤ c ∧ c ≤ 102 then some (c - 87)
  else none

inductive DecodeError where
  /-- The digits do not pair up. -/
  | oddLength
  /-- The first byte that is no digit, and its position in the field. -/
  | badDigit (char : UInt8) (position : Nat)
  deriving DecidableEq

/-- Reads digit pairs from the given position on. -/
def decodePairs (position : Nat) : Bytes → Except DecodeError Bytes
  | high :: low :: rest =>
    match digit? high, digit? low with
    | none, _ => .error (.badDigit high position)
    | some _, none => .error (.badDigit low (position + 1))
    | some h, some l => (decodePairs (position + 2) rest).map ((16 * h + l) :: ·)
  | _ => .ok []

def decode (field : Bytes) : Except DecodeError Bytes :=
  if field.length % 2 = 1 then .error .oddLength else decodePairs 0 field

/-- A number in lower-case digits, with zeros in front up to the given width. -/
def number (width n : Nat) : String :=
  String.ofList ((Nat.toDigits 16 n).leftpad width '0')

end HexBench.Hex
