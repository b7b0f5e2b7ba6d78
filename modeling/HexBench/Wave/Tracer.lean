import HexBench.Wave.Dump

set_option autoImplicit false

namespace HexBench.Wave

structure TraceReply (τ : Type) where
  trace : τ
  failure : Option String := none
  log : List LogEntry := []
  /-- The text that left the trace during the call, in the pieces in which it was written. -/
  pieces : List Bytes := []

class Tracer (τ : Type) where
  sample : UInt64 → List Signal → τ → TraceReply τ
  close : τ → TraceReply τ

/-- A reply as the bench takes it, with the words that introduce a failure. The text that was there
before is known by its number of pieces. -/
def Reply.toTrace (r : Reply) (start : Nat) (context : String) : TraceReply Dump where
  trace := r.dump
  failure := r.error.map fun e => context ++ e.message
  log := r.events.map Event.entry
  pieces := r.dump.sink.piecesFrom start

def Dump.closingContext : String := "flushing wave file: "

instance : Tracer Dump where
  sample time signals d :=
    let start := d.sink.pieces.size
    (d.sample time signals).toTrace start ""
  close d :=
    let start := d.sink.pieces.size
    d.close.toTrace start Dump.closingContext

structure Recorder where
  samples : Nat := 0
  /-- The number of the sample that is refused, counted from one. -/
  refused : Option Nat := none
  refusesClose : Bool := false

instance : Tracer Recorder where
  sample _ _ r :=
    let number := r.samples + 1
    { trace := { r with samples := number }
      failure :=
        if r.refused = some number then some ("recorder refused dump " ++ toString number)
        else none }
  close r :=
    { trace := r, failure := if r.refusesClose then some "recorder refused close" else none }

end HexBench.Wave
