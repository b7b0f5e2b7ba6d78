import HexBench.Text.Bytes

set_option autoImplicit false

namespace HexBench

inductive RecordKind where
  | data
  | endOfFile
  | extendedSegmentAddress
  | startSegmentAddress
  | extendedLinearAddress
  | startLinearAddress
  | unknown (code : UInt8)
  deriving DecidableEq

namespace RecordKind

def ofCode (code : UInt8) : RecordKind :=
  if code = 0 then data
  else if code = 1 then endOfFile
  else if code = 2 then extendedSegmentAddress
  else if code = 3 then startSegmentAddress
  else if code = 4 then extendedLinearAddress
  else if code = 5 then startLinearAddress
  else unknown code

def code : RecordKind → UInt8
  | data => 0
  | endOfFile => 1
  | extendedSegmentAddress => 2
  | startSegmentAddress => 3
  | extendedLinearAddress => 4
  | startLinearAddress => 5
  | unknown code => code

def name : RecordKind → String
  | data => "Data"
  | endOfFile => "EndOfFile"
  | extendedSegmentAddress => "ExtendedSegmentAddress"
  | startSegmentAddress => "StartSegmentAddress"
  | extendedLinearAddress => "ExtendedLinearAddress"
  | startLinearAddress => "StartLinearAddress"
  | unknown code => "Unknown(" ++ toString code.toNat ++ ")"

end RecordKind

structure Record where
  length : UInt8
  address : UInt16
  kind : RecordKind
  payload : Bytes
  /-- Absent where the record ends before it or does not spell it in hexadecimal. -/
  checksum : Option UInt8
  deriving DecidableEq

/-- The number that up to four bytes spell, the lowest first. -/
def littleEndian : Bytes → UInt32
  | [] => 0
  | b :: rest => b.toUInt32 ||| littleEndian rest <<< 8

/-- The bytes in groups of four from the given offset on; a short last group is filled with
zeros. -/
def wordsFrom (offset : Nat) : Bytes → List (Nat × UInt32)
  | [] => []
  | a :: b :: c :: d :: rest => (offset, littleEndian [a, b, c, d]) :: wordsFrom (offset + 4) rest
  | short => [(offset, littleEndian short)]

namespace Record

def header (r : Record) : Bytes :=
  [r.length, (r.address >>> 8).toUInt8, r.address.toUInt8, r.kind.code]

/-- The byte that brings the sum of all bytes of the record to zero. -/
def expectedChecksum (r : Record) : UInt8 := -((r.header ++ r.payload).foldr (· + ·) 0)

def checksumOk (r : Record) : Bool := r.checksum == some r.expectedChecksum

def words (r : Record) : List (Nat × UInt32) := wordsFrom 0 r.payload

/-- The number in an address record, which is two bytes, the high one first. -/
def upperAddress? (r : Record) : Option UInt64 :=
  match r.payload with
  | [high, low] => some (high.toUInt64 <<< 8 ||| low.toUInt64)
  | _ => none

end Record
end HexBench
