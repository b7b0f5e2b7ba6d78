import HexBench.Image.FromFile
import HexBench.Text.Utf8

set_option autoImplicit false

namespace HexBench

namespace Fill

inductive Event where
  | requested (name : String) (words : Nat)
  | nullPointer
  | loading (e : Image.Event)
  | loaded (path : String)
  | counted (path : String) (s : Image.Summary)
  | overflow (path : String) (dropped capacity : Nat)
  | failed (e : Image.FileFailure)
  deriving DecidableEq

def countsText (s : Image.Summary) : String :=
  toString s.records ++ " records, " ++ toString s.written ++ " words written, "
    ++ toString s.dropped ++ " dropped, " ++ toString s.skipped ++ " skipped, "
    ++ toString s.malformed ++ " malformed"

def origin : String := "archtest_dpi::dpi"

/-- The simulated time in front of a report is always zero, because no simulator is asked for it. -/
def Event.entry : Event → LogEntry
  | requested name words =>
    ⟨.debug, origin, "[0] readmemh (filename=" ++ name ++ ", words=" ++ toString words ++ ")"⟩
  | nullPointer => ⟨.error, origin, "readmemh called with a null filename or memory pointer"⟩
  | loading e => e.entry
  | loaded path => ⟨.info, origin, "Loaded HEX file: " ++ path⟩
  | counted path s => ⟨.debug, origin, "[0] " ++ path ++ ": " ++ countsText s⟩
  | overflow path dropped capacity =>
    ⟨.warn, origin, path ++ ": " ++ toString dropped ++ " words beyond the " ++ toString capacity
      ++ "-word memory were dropped"⟩
  | failed e => ⟨.error, origin, e.message⟩

def conclusion (path : String) (capacity : Nat) :
    Except Image.FileFailure Image.Summary → List Event
  | .error e => [.failed e]
  | .ok s =>
    [.loaded path, .counted path s]
      ++ if 0 < s.dropped then [.overflow path s.dropped capacity] else []

def nameOf (bytes : Bytes) : String := Utf8.decodeLossy (bytes.takeWhile (· ≠ 0))

end Fill

structure Filled where
  memory : Memory
  events : List Fill.Event

namespace Filled

def entries (f : Filled) : List LogEntry := f.events.map Fill.Event.entry

end Filled

def fill (sources : Image.Sources) (o : Image.Options) (path : String) (memory : Memory) :
    Filled :=
  let r := Image.loadFile sources o path memory
  ⟨r.memory, r.events.toList.map .loading ++ Fill.conclusion path r.memory.size r.result⟩

/-- Fills a memory for a caller who hands over a name that ends at its first NUL, and the memory,
either of which may be missing. The request is reported before the image is opened; what paths lead
to is asked for once it is, because a report can reach the file that is read. -/
def readmemh (found : Fill.Event → Image.Sources) (o : Image.Options) (name : Option Bytes)
    (hasMemory : Bool) (memory : Memory) : Filled :=
  match name with
  | some bytes =>
    if hasMemory then
      let path := Fill.nameOf bytes
      let request := Fill.Event.requested path memory.size
      let filled := fill (found request) o path memory
      { filled with events := request :: filled.events }
    else ⟨memory, [.nullPointer]⟩
  | none => ⟨memory, [.nullPointer]⟩

def Memory.fillFirst (words : Nat) (filling : Memory → Filled) (memory : Memory) : Filled :=
  let filled := filling (memory.extract 0 words)
  { filled with memory := filled.memory ++ memory.extract words memory.size }

end HexBench
