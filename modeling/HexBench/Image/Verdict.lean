import HexBench.Log
import HexBench.Record.Parser

set_option autoImplicit false

namespace HexBench.Image

/-- By default no checksum is looked at, and every record but data is passed over. -/
structure Options where
  verifyChecksum : Bool := false
  extendedRecords : Bool := false
  deriving DecidableEq

inductive Verdict where
  /-- The line is no record and is not mentioned anywhere. -/
  | comment
  | malformed (e : Record.ParseError)
  | checksumMismatch (expected : UInt8) (found : Option UInt8)
  | data (r : Record)
  | endOfFile
  /-- The addresses of the following records count from here. -/
  | base (address : UInt64)
  /-- An address record whose payload is not two bytes. -/
  | noAddress (bytes : Nat)
  | ignored (kind : RecordKind)

namespace Verdict

/-- The base that an address record sets, a multiple of 16 or of 65536. -/
def ofAddress (r : Record) (shift : UInt64) : Verdict :=
  match r.upperAddress? with
  | some value => base (value <<< shift)
  | none => noAddress r.payload.length

def ofKind (o : Options) (r : Record) : Verdict :=
  match r.kind with
  | .data => data r
  | .endOfFile => if o.extendedRecords then endOfFile else ignored r.kind
  | .extendedSegmentAddress => if o.extendedRecords then ofAddress r 4 else ignored r.kind
  | .extendedLinearAddress => if o.extendedRecords then ofAddress r 16 else ignored r.kind
  | kind => ignored kind

def ofRecord (o : Options) (r : Record) : Verdict :=
  if o.verifyChecksum && !r.checksumOk then checksumMismatch r.expectedChecksum r.checksum
  else ofKind o r

def ofLine (o : Options) (line : Bytes) : Verdict :=
  if line.head? = some Record.startCode then
    match Record.parse line with
    | .ok r => ofRecord o r
    | .error e => malformed e
  else comment

end Verdict
end HexBench.Image
