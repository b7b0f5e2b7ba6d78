set_option autoImplicit false

namespace HexBench.Wave

structure Signal where
  name : String
  width : UInt32
  value : UInt64
  deriving DecidableEq

def Signal.bit (name : String) (level : Bool) : Signal := ⟨name, 1, level.toUInt64⟩

def codeDigit (n : Nat) : Char := Char.ofNat (n + 33)

/-- All digits stand for one more than their plain value in every place but the lowest, so that no
two indices share a code. -/
def identifier (index : Nat) : List Char :=
  codeDigit (index % 94) :: if index < 94 then [] else identifier (index / 94 - 1)
  termination_by index

end HexBench.Wave
