import HexBench.Text.Numeral

set_option autoImplicit false

/-!
Arguments of the form `+name` and `+name=value`. The name ends at the first equals sign; a value may
be empty and may hold further equals signs, but no line feed. Of several arguments with one name the
last one counts, also when it has no value and an earlier one has.
-/

namespace HexBench

structure Plusarg where
  name : String
  value : Option String
  deriving DecidableEq

def Plusarg.ofArgument? (argument : String) : Option Plusarg :=
  match argument.toList with
  | '+' :: text =>
    let name := text.takeWhile (· ≠ '=')
    if name.isEmpty then none
    else
      match text.dropWhile (· ≠ '=') with
      | [] => some ⟨String.ofList name, none⟩
      | _ :: value =>
        if value.contains '\n' then none
        else some ⟨String.ofList name, some (String.ofList value)⟩
  | _ => none

structure Plusargs where
  arguments : List String

structure BadValue (ε : Type) where
  name : String
  value : String
  reason : ε

def BadValue.message {ε : Type} (reasonText : ε → String) (b : BadValue ε) : String :=
  "invalid +" ++ b.name ++ "=" ++ b.value ++ ": " ++ reasonText b.reason

namespace Plusargs

def last? (a : Plusargs) (name : String) : Option Plusarg :=
  (a.arguments.filterMap Plusarg.ofArgument?).reverse.find? fun p => p.name == name

def has (a : Plusargs) (name : String) : Bool := (a.last? name).isSome

def value? (a : Plusargs) (name : String) : Option String := (a.last? name).bind Plusarg.value

/-- The value read by a reader; without a value there is nothing to read. -/
def read? {ε α : Type} (a : Plusargs) (name : String) (reader : String → Except ε α) :
    Except (BadValue ε) (Option α) :=
  match a.value? name with
  | none => .ok none
  | some value =>
    match reader value with
    | .ok v => .ok (some v)
    | .error reason => .error ⟨name, value, reason⟩

end Plusargs

end HexBench
