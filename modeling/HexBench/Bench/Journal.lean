import HexBench.Design
import HexBench.Text.Bytes

set_option autoImplicit false

namespace HexBench

open Wave (Signal)

inductive Phase where
  | reset
  | running
  | finished
  | timeout
  deriving DecidableEq

namespace Bench

inductive Call where
  | setReset (level : Bool)
  | setClock (level : Bool)
  | evaluate
  | finished (answer : Bool)
  | advance (delta : UInt64)
  | signals
  | sample (time : UInt64) (signals : List Signal)
  | close
  deriving DecidableEq

inductive Event where
  | resetReleased
  | sampleFailed (time : UInt64) (cause : String)
  | watchdog (time limit : UInt64)
  | closeFailed (cause : String)
  | ended (phase : Phase) (time : UInt64)
  deriving DecidableEq

def resetEdges : Nat := 10

def halfPeriod : UInt64 := 5

def endText : Phase → String
  | .finished => "finished"
  | .timeout => "Timeout"
  | .reset | .running => "stopped early"

def origin : String := "archtest_dpi::drive"

def atTime (time : UInt64) (text : String) : String :=
  "[" ++ toString time.toNat ++ "] " ++ text

def Event.entry : Event → LogEntry
  | resetReleased =>
    ⟨.debug, origin, "reset released after " ++ toString resetEdges ++ " clock edges"⟩
  | sampleFailed time cause =>
    ⟨.error, origin, atTime time ("wave dump failed, tracing stopped: " ++ cause)⟩
  | watchdog time limit =>
    ⟨.error, origin,
      atTime time ("watchdog timeout (max_time=" ++ toString limit.toNat ++ ")")⟩
  | closeFailed cause => ⟨.error, origin, "closing wave trace: " ++ cause⟩
  | ended phase time =>
    ⟨if phase = .finished then .info else .error, origin,
      "sim_final: " ++ endText phase ++ " at time " ++ toString time.toNat⟩

inductive Action where
  | call (c : Call)
  | event (e : Event)
  | designLog (e : LogEntry)
  /-- What the design logs while it is asked for its signals, which only a sample needs. -/
  | signalsLog (e : LogEntry)
  | traceLog (e : LogEntry)
  /-- The text comes in the pieces in which it was written. -/
  | traceText (pieces : List Bytes)
  deriving DecidableEq

def Action.entry? : Action → Option LogEntry
  | .event e => some e.entry
  | .designLog e => some e
  | .signalsLog e => some e
  | .traceLog e => some e
  | .call _ | .traceText _ => none

abbrev Journal := Array Action

namespace Journal

def entries (j : Journal) : List LogEntry := j.toList.filterMap Action.entry?

def calls (j : Journal) : List Call :=
  j.toList.filterMap fun
    | .call c => some c
    | _ => none

def text (j : Journal) : Bytes :=
  j.toList.flatMap fun
    | .traceText pieces => pieces.flatten
    | _ => []

end Journal
end Bench
end HexBench
