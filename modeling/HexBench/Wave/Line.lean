import HexBench.Text.Bytes
import HexBench.Wave.Signal

set_option autoImplicit false

namespace HexBench.Wave

inductive Line where
  | version
  | timescale
  | scope (name : String)
  | declaration (width : UInt32) (id : List Char) (name : String)
  | upscope
  | endOfDefinitions
  | stamp (time : UInt64)
  | startOfValues
  | scalar (bit : Bool) (id : List Char)
  | vector (value : UInt64) (id : List Char)
  | endOfValues
  deriving DecidableEq

namespace Line

/-- The record of a value. One bit takes the lowest bit of the value; a vector takes all of it,
whatever its width. -/
def ofValue (s : Signal) (id : List Char) : Line :=
  if s.width = 1 then scalar (s.value % 2 == 1) id else vector s.value id

/-- The pieces in which a line is written, up to the line feed that ends it. -/
def pieces : Line → List String
  | version => ["$version archtest-dpi 0.1.0 $end\n"]
  | timescale => ["$timescale 1ps $end\n"]
  | scope name => ["$scope module ", name, " $end\n"]
  | declaration width id name =>
    ["$var wire ", toString width.toNat, " ", String.ofList id, " ", name, " $end\n"]
  | upscope => ["$upscope $end\n"]
  | endOfDefinitions => ["$enddefinitions $end\n"]
  | stamp time => ["#", toString time.toNat, "\n"]
  | startOfValues => ["$dumpvars\n"]
  | scalar bit id => [if bit then "1" else "0", String.ofList id, "\n"]
  | vector value id =>
    ["b", String.ofList (Nat.toDigits 2 value.toNat), " ", String.ofList id, "\n"]
  | endOfValues => ["$end\n"]

def bytes (l : Line) : List Bytes := l.pieces.map Bytes.ofString

end Line
end HexBench.Wave
