import HexBench.Design
import HexBench.Fill

set_option autoImplicit false

namespace HexBench

/-- The foreign functions around a top that the program is linked with, besides those by which it is
a design. -/
structure Shim (σ : Type) where
  /-- No top can be allocated for the arguments. -/
  refuses : List String → Bool
  /-- A top for the arguments, and how it is answered when it asks for its memory to be filled.
  There is no memory to fill where the flag is off. -/
  make : List String → (Option Bytes → Bool → Memory → Filled) → σ
  /-- The files that the top leaves when it is dropped, over whatever was in their places. -/
  leaves : σ → List (String × Bytes)
  /-- The paths that a top for the arguments may open. -/
  paths : List String → List String

namespace Shim

inductive CreateError where
  /-- The byte offset of the first NUL in an argument. -/
  | nulInArgument (position : Nat)
  | allocationFailed
  deriving DecidableEq

def CreateError.message : CreateError → String
  | .nulInArgument position =>
    "nul byte found in provided data at position: " ++ toString position
  | .allocationFailed => "Vtb_top allocation failed"

def origin : String := "archtest_dpi::model::verilated"

def creating (arguments : List String) : LogEntry :=
  ⟨.debug, origin, "creating Vtb_top with " ++ toString arguments.length ++ " runtime args"⟩

def nulPosition? (arguments : List String) : Option Nat :=
  arguments.findSome? fun a => (Bytes.ofString a).findIdx? (· = 0)

/-- What is logged when a top is to be made, and why it cannot be. Nothing is logged for arguments
that cannot be handed over. -/
def vet {σ : Type} (shim : Shim σ) (arguments : List String) :
    List LogEntry × Option CreateError :=
  match nulPosition? arguments with
  | some position => ([], some (.nulInArgument position))
  | none =>
    ([creating arguments], if shim.refuses arguments then some .allocationFailed else none)

end Shim
end HexBench
