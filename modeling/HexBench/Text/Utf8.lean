import HexBench.Text.Bytes

set_option autoImplicit false

namespace HexBench.Utf8

def replacement : Char := Char.ofNat 0xfffd

/-- A character of which some continuation bytes are still missing, with the bounds on the next. -/
structure Partial where
  value : Nat
  missing : Nat
  low : UInt8
  high : UInt8

structure Decoder where
  text : String := ""
  partly : Option Partial := none

/-- What a first byte asks for. The narrower bounds exclude overlong forms, surrogates and numbers
above the last character. -/
def Partial.ofLead? (b : UInt8) : Option Partial :=
  if 0xc2 ≤ b ∧ b ≤ 0xdf then some ⟨b.toNat % 32, 1, 0x80, 0xbf⟩
  else if b = 0xe0 then some ⟨0, 2, 0xa0, 0xbf⟩
  else if b = 0xed then some ⟨13, 2, 0x80, 0x9f⟩
  else if 0xe1 ≤ b ∧ b ≤ 0xef then some ⟨b.toNat % 16, 2, 0x80, 0xbf⟩
  else if b = 0xf0 then some ⟨0, 3, 0x90, 0xbf⟩
  else if b = 0xf4 then some ⟨4, 3, 0x80, 0x8f⟩
  else if 0xf1 ≤ b ∧ b ≤ 0xf3 then some ⟨b.toNat % 8, 3, 0x80, 0xbf⟩
  else none

def Decoder.start (d : Decoder) (b : UInt8) : Decoder :=
  if b < 0x80 then ⟨d.text.push (Char.ofUInt8 b), none⟩
  else
    match Partial.ofLead? b with
    | some p => ⟨d.text, some p⟩
    | none => ⟨d.text.push replacement, none⟩

def Decoder.step (d : Decoder) (b : UInt8) : Decoder :=
  match d.partly with
  | none => d.start b
  | some p =>
    if p.low ≤ b ∧ b ≤ p.high then
      let value := p.value * 64 + b.toNat % 64
      if p.missing ≤ 1 then ⟨d.text.push (Char.ofNat value), none⟩
      else ⟨d.text, some ⟨value, p.missing - 1, 0x80, 0xbf⟩⟩
    else Decoder.start ⟨d.text.push replacement, none⟩ b

def Decoder.finish (d : Decoder) : String :=
  match d.partly with
  | none => d.text
  | some _ => d.text.push replacement

/-- Each ill-formed piece, taken as long as it could still have grown into a character, becomes one
replacement character. -/
def decodeLossy (s : Bytes) : String := (s.foldl Decoder.step {}).finish

end HexBench.Utf8
