set_option autoImplicit false

namespace HexBench.Numeral

inductive Fault where
  | empty
  | invalidDigit
  | tooLarge
  | tooSmall
  deriving DecidableEq

def Fault.message : Fault → String
  | .empty => "cannot parse integer from empty string"
  | .invalidDigit => "invalid digit found in string"
  | .tooLarge => "number too large to fit in target type"
  | .tooSmall => "number too small to fit in target type"

def digit? (c : Char) : Option Nat :=
  if '0' ≤ c ∧ c ≤ '9' then some (c.toNat - '0'.toNat) else none

/-- Reads digits behind a number already read; `overflow` is the fault of exceeding `limit`. -/
def readDigits (limit : Nat) (overflow : Fault) : Nat → List Char → Except Fault Nat
  | n, [] => .ok n
  | n, c :: rest =>
    match digit? c with
    | none => .error .invalidDigit
    | some d =>
      if limit < 10 * n + d then .error overflow
      else readDigits limit overflow (10 * n + d) rest

def readMagnitude (limit : Nat) (overflow : Fault) : List Char → Except Fault Nat
  | [] => .error .invalidDigit
  | c :: rest => readDigits limit overflow 0 (c :: rest)

/-- The numbers from `-below` to `above`. Without negative numbers there is no minus sign either. -/
structure Range where
  below : Nat
  above : Nat

def Range.unsigned (bits : Nat) : Range := ⟨0, Nat.pow 2 bits - 1⟩

def Range.signed (bits : Nat) : Range := ⟨Nat.pow 2 (bits - 1), Nat.pow 2 (bits - 1) - 1⟩

/-- A sign may stand before the digits. -/
def Range.read (r : Range) (text : String) : Except Fault Int :=
  match text.toList with
  | [] => .error .empty
  | '+' :: digits => (readMagnitude r.above .tooLarge digits).map Int.ofNat
  | '-' :: digits =>
    if r.below = 0 then .error .invalidDigit
    else (readMagnitude r.below .tooSmall digits).map fun n => -Int.ofNat n
  | digits => (readMagnitude r.above .tooLarge digits).map Int.ofNat

def readUnsigned (bits : Nat) (text : String) : Except Fault Nat :=
  ((Range.unsigned bits).read text).map Int.toNat

end HexBench.Numeral
