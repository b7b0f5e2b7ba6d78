import HexBench.Image.Verdict

set_option autoImplicit false

/-!
Loading an image into a memory of 32-bit words. Lines are taken in order until an honoured
end-of-file record. A word whose index is outside the memory is dropped.
-/

namespace HexBench

abbrev Memory := Array UInt32

namespace Image

structure Summary where
  records : Nat := 0
  written : Nat := 0
  dropped : Nat := 0
  /-- Records of a kind that is passed over. -/
  skipped : Nat := 0
  malformed : Nat := 0
  deriving DecidableEq

/-- What a load reports. Lines are numbered from one, and all lines count. -/
inductive Event where
  | malformed (line : Nat) (e : Record.ParseError)
  | checksumMismatch (line : Nat) (expected : UInt8) (found : Option UInt8)
  | endOfFile (line : Nat)
  | baseSet (line : Nat) (address : UInt64)
  | noAddress (line : Nat) (bytes : Nat)
  | ignored (line : Nat) (kind : RecordKind)
  | dropped (index : UInt64) (word : UInt32) (capacity : Nat)
  deriving DecidableEq

def origin : String := "archtest_dpi::ihex"

namespace Event

def level : Event → Level
  | malformed .. | checksumMismatch .. | noAddress .. => .warn
  | endOfFile .. | baseSet .. => .debug
  | ignored .. | dropped .. => .trace

def atLine (line : Nat) (text : String) : String := "line " ++ toString line ++ ": " ++ text

def foundChecksum : Option UInt8 → String
  | none => "None"
  | some c => "Some(" ++ toString c.toNat ++ ")"

def message : Event → String
  | malformed line e => atLine line ("skipping malformed record: " ++ e.message)
  | checksumMismatch line expected found =>
    atLine line ("checksum mismatch (expected 0x" ++ Hex.number 2 expected.toNat ++ ", found "
      ++ foundChecksum found ++ "), record skipped")
  | endOfFile line => atLine line "end of file record"
  | baseSet line address => atLine line ("address base set to 0x" ++ Hex.number 1 address.toNat)
  | noAddress line bytes => atLine line ("address record with " ++ toString bytes ++ " data bytes")
  | ignored line kind => atLine line ("ignoring " ++ kind.name ++ " record")
  | dropped index word capacity =>
    "dropping word 0x" ++ Hex.number 8 word.toNat ++ " at index 0x" ++ Hex.number 1 index.toNat
      ++ " (capacity " ++ toString capacity ++ ")"

def entry (e : Event) : LogEntry := ⟨e.level, origin, e.message⟩

end Event

structure Load where
  memory : Memory
  base : UInt64 := 0
  summary : Summary := {}
  events : Array Event := #[]
  /-- An end-of-file record was honoured. -/
  stopped : Bool := false

namespace Load

def note (l : Load) (e : Event) : Load := { l with events := l.events.push e }

def countMalformed (l : Load) : Load :=
  { l with summary := { l.summary with malformed := l.summary.malformed + 1 } }

def countSkipped (l : Load) : Load :=
  { l with summary := { l.summary with skipped := l.summary.skipped + 1 } }

def countRecord (l : Load) : Load :=
  { l with summary := { l.summary with records := l.summary.records + 1 } }

def store (l : Load) (index : UInt64) (word : UInt32) : Load :=
  if index.toNat < l.memory.size then
    { l with
      memory := l.memory.setIfInBounds index.toNat word
      summary := { l.summary with written := l.summary.written + 1 } }
  else
    { l with
      events := l.events.push (.dropped index word l.memory.size)
      summary := { l.summary with dropped := l.summary.dropped + 1 } }

/-- The index of the word at an offset from an address; the lowest two bits do not count. -/
def wordIndex (address : UInt64) (offset : Nat) : UInt64 := (address + offset.toUInt64) >>> 2

def storeWords (l : Load) (address : UInt64) (words : List (Nat × UInt32)) : Load :=
  words.foldl (fun l w => l.store (wordIndex address w.1) w.2) l

def apply (l : Load) (line : Nat) : Verdict → Load
  | .comment => l
  | .malformed e => (l.note (.malformed line e)).countMalformed
  | .checksumMismatch expected found =>
    (l.note (.checksumMismatch line expected found)).countMalformed
  | .data r => l.countRecord.storeWords (l.base + r.address.toUInt64) r.words
  | .endOfFile => { l.note (.endOfFile line) with stopped := true }
  | .base address => { l.note (.baseSet line address) with base := address }
  | .noAddress bytes => (l.note (.noAddress line bytes)).countMalformed
  | .ignored kind => (l.note (.ignored line kind)).countSkipped

def run (o : Options) : Nat → List Bytes → Load → Load
  | _, [], l => l
  | number, line :: rest, l =>
    if l.stopped then l else run o (number + 1) rest (l.apply number (.ofLine o line))

end Load

/-- What a reader delivers: bytes, and behind them the end, or a failure, with its text, that
reading ends with. A read that is interrupted is tried again and is no such failure. -/
structure Source where
  bytes : Bytes
  failure : Option String := none

/-- The lines that a reader gets to see whole. A failure hides an unterminated last line. -/
def Source.lines (s : Source) : List Bytes :=
  match s.failure with
  | none => s.bytes.lines.all
  | some _ => s.bytes.lines.ended

/-- What is left when a load is over. The memory keeps what was written before a failure. -/
structure Outcome where
  memory : Memory
  events : Array Event
  result : Except String Summary

/-- A failure behind the end-of-file record that stopped the load is never met. -/
def load (o : Options) (s : Source) (memory : Memory) : Outcome :=
  let l := Load.run o 1 s.lines { memory }
  let result :=
    match s.failure with
    | none => .ok l.summary
    | some text => if l.stopped then .ok l.summary else .error text
  ⟨l.memory, l.events, result⟩

end Image
end HexBench
