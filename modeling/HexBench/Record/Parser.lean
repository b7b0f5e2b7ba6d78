import HexBench.Record
import HexBench.Text.Hex
import HexBench.Text.Quoted

set_option autoImplicit false

namespace HexBench.Record

def startCode : UInt8 := 58

inductive ParseError where
  | noStartCode
  | shortHeader (chars : Nat)
  | header (e : Hex.DecodeError)
  | shortPayload (expected : UInt8) (chars : Nat)
  | payload (e : Hex.DecodeError)
  deriving DecidableEq

def checksum? (s : Bytes) : Option UInt8 :=
  match s with
  | high :: low :: _ =>
    match Hex.digit? high, Hex.digit? low with
    | some h, some l => some (16 * h + l)
    | _, _ => none
  | _ => none

def ofHeader (header : Bytes) (s : Bytes) : Except ParseError Record :=
  let length := header.getD 0 0
  let digits := 2 * length.toNat
  if s.length < digits then .error (.shortPayload length s.length)
  else
    match Hex.decode (s.take digits) with
    | .error e => .error (.payload e)
    | .ok payload =>
      .ok {
        length
        address := (header.getD 1 0).toUInt16 <<< 8 ||| (header.getD 2 0).toUInt16
        kind := .ofCode (header.getD 3 0)
        payload
        checksum := checksum? (s.drop digits) }

/-- Reads what stands behind the start code. The header is eight digits. -/
def ofBody (body : Bytes) : Except ParseError Record :=
  if body.length < 8 then .error (.shortHeader body.length)
  else
    match Hex.decode (body.take 8) with
    | .error e => .error (.header e)
    | .ok header => ofHeader header (body.drop 8)

def parse (line : Bytes) : Except ParseError Record :=
  match line.trimEnd with
  | [] => .error .noStartCode
  | c :: body => if c = startCode then ofBody body else .error .noStartCode

end Record

def Hex.DecodeError.message : Hex.DecodeError → String
  | .oddLength => "Odd number of digits"
  | .badDigit c position =>
    "Invalid character " ++ Quoted.char c ++ " at position " ++ toString position

def Record.ParseError.message : Record.ParseError → String
  | .noStartCode => "record does not start with ':'"
  | .shortHeader chars => "truncated record header (" ++ toString chars ++ " chars)"
  | .header e => "decoding record header: " ++ e.message
  | .shortPayload expected chars =>
    "truncated record payload: expected " ++ toString expected.toNat ++ " bytes, got "
      ++ toString chars ++ " chars"
  | .payload e => "decoding record payload: " ++ e.message

end HexBench
