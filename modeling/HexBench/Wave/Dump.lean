import HexBench.Log
import HexBench.Wave.Line
import HexBench.Wave.Sink

set_option autoImplicit false

/-!
A value change dump in the making. The first sample declares the variables and gives all values;
each later one gives the values that changed, under a time stamp. A sink that fails leaves the table
of variables as far as the text got: a variable is in the table once its declaration is written, and
a new value is remembered once its record is begun.
-/

namespace HexBench.Wave

structure Var where
  signal : Signal
  id : List Char
  deriving DecidableEq

inductive Event where
  | headerWritten (signals : Nat)
  | opened (path : String)
  deriving DecidableEq

def origin : String := "archtest_dpi::trace"

def Event.entry : Event → LogEntry
  | .headerWritten signals =>
    ⟨.debug, origin, "vcd header written with " ++ toString signals ++ " signals"⟩
  | .opened path => ⟨.info, origin, "dumping waves to " ++ path⟩

structure Dump where
  scope : String
  vars : List Var := []
  /-- The header is written in full. -/
  started : Bool := false
  sink : Sink := {}

structure Reply where
  dump : Dump
  error : Option SinkError := none
  events : List Event := []

def declare (index : Nat) : List Signal → List Var
  | [] => []
  | s :: rest => ⟨s, identifier index⟩ :: declare (index + 1) rest

def Var.declaration (v : Var) : Line := .declaration v.signal.width v.id v.signal.name

def Var.record (v : Var) : Line := .ofValue v.signal v.id

/-- The variable with its new value, if the sample has one. Of several signals with its name the
first one counts. -/
def Var.update? (signals : List Signal) (v : Var) : Option Var :=
  match signals.find? fun s => s.name == v.signal.name with
  | none => none
  | some now =>
    if now.value = v.signal.value then none
    else some { v with signal := { v.signal with value := now.value } }

/-- Takes over the first new values, the given number of them. -/
def remember : Nat → List (Var × Option Var) → List Var
  | _, [] => []
  | n, (v, none) :: rest => v :: remember n rest
  | 0, (v, some _) :: rest => v :: remember 0 rest
  | n + 1, (_, some v) :: rest => v :: remember n rest

namespace Dump

def opening (d : Dump) : List Line := [.version, .timescale, .scope d.scope]

/-- Declarations that a failed header left stand in the table in front of the new ones, and their
values are given too. -/
def writeHeader (d : Dump) (time : UInt64) (signals : List Signal) : Reply :=
  let declared := declare 0 signals
  let vars := d.vars ++ declared
  let lines := d.opening ++ declared.map Var.declaration
    ++ [.upscope, .endOfDefinitions, .stamp time, .startOfValues]
    ++ vars.map Var.record ++ [.endOfValues]
  let w := d.sink.writeLines (lines.map Line.bytes)
  match w.error with
  | some e =>
    { dump :=
        { d with vars := d.vars ++ declared.take (w.count - d.opening.length), sink := w.sink }
      error := some e }
  | none =>
    { dump := { d with vars, started := true, sink := w.sink }
      events := [.headerWritten vars.length] }

/-- Nothing is written where nothing changed. A failure comes while the record behind the last
whole line is written, so as many new values are remembered as lines were written whole. -/
def writeChanges (d : Dump) (time : UInt64) (signals : List Signal) : Reply :=
  let marked := d.vars.map fun v => (v, v.update? signals)
  let records := (marked.filterMap Prod.snd).map Var.record
  let lines := if records.isEmpty then [] else .stamp time :: records
  let w := d.sink.writeLines (lines.map Line.bytes)
  { dump := { d with vars := remember w.count marked, sink := w.sink }
    error := w.error }

def sample (d : Dump) (time : UInt64) (signals : List Signal) : Reply :=
  if d.started then d.writeChanges time signals
  else
    let header := d.writeHeader time signals
    match header.error with
    | some _ => header
    | none =>
      let changes := header.dump.writeChanges time signals
      { changes with events := header.events ++ changes.events }

def close (d : Dump) : Reply :=
  let (error, sink) := d.sink.flush
  { dump := { d with sink }, error }

end Dump
end HexBench.Wave
