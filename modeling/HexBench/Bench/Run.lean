import HexBench.Bench.Journal
import HexBench.Wave.Tracer

set_option autoImplicit false

/-!
Running a design: reset is held for some clock edges, then the clock goes on, with a sample of the
waves at every edge, until the design finishes or its time is up. A trace that fails is given up,
and the run goes on without it.
-/

namespace HexBench

open Wave (Signal Tracer TraceReply)

/-- A design on the bench, with its trace as long as that works. -/
structure Bench (σ τ : Type) where
  design : σ
  trace : Option τ
  time : UInt64 := 0
  /-- The run times out once the time passes this. -/
  limit : Option UInt64 := none
  phase : Phase := .reset
  journal : Bench.Journal := #[]

namespace Bench

variable {σ τ : Type} [Design σ] [Tracer τ]

def note (b : Bench σ τ) (a : Action) : Bench σ τ := { b with journal := b.journal.push a }

def noteAll (b : Bench σ τ) (as : List Action) : Bench σ τ :=
  { b with journal := b.journal ++ as }

def callActions (c : Call) (log : List LogEntry) : List Action := .call c :: log.map .designLog

def noteCall (b : Bench σ τ) (c : Call) (log : List LogEntry) : Bench σ τ :=
  b.noteAll (callActions c log)

def setReset (b : Bench σ τ) (level : Bool) : Bench σ τ :=
  let (design, log) := Design.setReset level b.design
  { b with design }.noteCall (.setReset level) log

def evaluate (b : Bench σ τ) : Bench σ τ :=
  let (design, log) := Design.evaluate b.design
  { b with design }.noteCall .evaluate log

def toggleClock (b : Bench σ τ) : Bench σ τ :=
  let clk := Design.clock b.design
  let level := !clk.answer
  let (design, log) := Design.setClock level clk.design
  ({ b with design }.noteAll (clk.log.map .designLog)).noteCall (.setClock level) log |>.evaluate

def toggleClocks : Nat → Bench σ τ → Bench σ τ
  | 0, b => b
  | n + 1, b => toggleClocks n b.toggleClock

/-- Holds reset for a number of clock edges. Time does not go on meanwhile. -/
def reset (b : Bench σ τ) : Bench σ τ :=
  let b := toggleClocks resetEdges ((b.setReset false).evaluate)
  { b.setReset true with phase := .running }.note (.event .resetReleased)

def askFinished (b : Bench σ τ) : Bool × Bench σ τ :=
  let look := Design.finished b.design
  (look.answer, { b with design := look.design }.noteCall (.finished look.answer) look.log)

def signalsActions (log : List LogEntry) : List Action := .call .signals :: log.map .signalsLog

def replyActions (c : Call) (r : TraceReply τ) : List Action :=
  .call c :: .traceText r.pieces :: r.log.map .traceLog

def sampleWaves (b : Bench σ τ) : Bench σ τ :=
  match b.trace with
  | none => b
  | some trace =>
    let look := Design.signals b.design
    let b := { b with design := look.design, trace := none }.noteAll (signalsActions look.log)
    let r := Tracer.sample b.time look.answer trace
    let b := b.noteAll (replyActions (.sample b.time look.answer) r)
    match r.failure with
    | none => { b with trace := some r.trace }
    | some cause => b.note (.event (.sampleFailed b.time cause))

def advance (b : Bench σ τ) : Bench σ τ :=
  let (design, log) := Design.advance halfPeriod b.design
  { b with time := b.time + halfPeriod, design }.noteCall (.advance halfPeriod) log

def watch (b : Bench σ τ) : Bench σ τ :=
  match b.limit with
  | none => b
  | some limit =>
    if limit < b.time then { b with phase := .timeout }.note (.event (.watchdog b.time limit))
    else b

/-- Half a clock period, unless the run is over or the design turns out to have finished. -/
def step (b : Bench σ τ) : Bench σ τ :=
  if b.phase = .running then
    let (answer, b) := b.askFinished
    if answer then { b with phase := .finished }
    else b.toggleClock.sampleWaves.advance.watch
  else b

/-- The steps that can be begun before a 64-bit time runs over. -/
def stepsLeft (time : UInt64) : Nat := (UInt64.size - 1 - time.toNat) / halfPeriod.toNat + 1

def runFor : Nat → Bench σ τ → Bench σ τ
  | 0, b => b
  | n + 1, b =>
    let b := b.step
    if b.phase = .running then runFor n b else b

def run (b : Bench σ τ) : Bench σ τ := runFor (stepsLeft b.time) b

def finish (b : Bench σ τ) : Bench σ τ :=
  let closed := match b.trace with
    | none => b
    | some trace =>
      let r := Tracer.close trace
      let b := { b with trace := none }.noteAll (replyActions .close r)
      match r.failure with
      | none => b
      | some cause => b.note (.event (.closeFailed cause))
  closed.note (.event (.ended closed.phase closed.time))

def simulate (design : σ) (trace : Option τ) (limit : Option UInt64) : Bench σ τ :=
  ({ design, trace, limit } : Bench σ τ).reset.run.finish

end Bench
end HexBench
