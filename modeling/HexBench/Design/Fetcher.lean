import HexBench.Design
import HexBench.Fill

set_option autoImplicit false

namespace HexBench

open Wave (Signal)

/-- When a fetcher finishes even without a zero word. -/
structure FinishRule where
  /-- From this number of rising edges on. -/
  edges : Option Nat := none
  /-- After exactly these numbers of evaluations. -/
  evaluations : List Nat := []
  /-- From this number of evaluations on. -/
  limit : Nat := 400

/-- A small design that loads its memory at the first evaluation and fetches one word at every
rising clock edge out of reset. It finishes at a zero word, or where its rule says. -/
structure Fetcher where
  clock : Bool := false
  reset : Bool := false
  /-- The clock at the last evaluation. -/
  before : Bool := false
  /-- A stuck clock keeps its level. -/
  stuck : Bool := false
  evaluations : Nat := 0
  rising : Nat := 0
  time : UInt64 := 0
  pc : Nat := 0
  fetched : Array UInt32 := #[]
  halted : Bool := false
  memory : Memory := #[]
  /-- How the memory is filled at the first evaluation, if it is. -/
  filling : Option (Memory → Filled) := none
  rule : FinishRule := {}

namespace Fetcher

def load (f : Fetcher) : Fetcher × List LogEntry :=
  match f.filling with
  | some filling =>
    if f.evaluations = 1 then
      let filled := filling f.memory
      ({ f with memory := filled.memory }, filled.entries)
    else (f, [])
  | none => (f, [])

def fetch (f : Fetcher) : Fetcher :=
  match f.memory[f.pc % f.memory.size]? with
  | some word =>
    { f with fetched := f.fetched.push word, pc := f.pc + 1, halted := word == 0 }
  | none => f

def clockEdge (f : Fetcher) : Fetcher :=
  let isRising := f.clock && !f.before
  let f := { f with before := f.clock }
  if !f.reset then { f with pc := 0 }
  else if isRising then
    let f := { f with rising := f.rising + 1 }
    if f.halted then f else f.fetch
  else f

def evaluate (f : Fetcher) : Fetcher × List LogEntry :=
  let (f, log) := load { f with evaluations := f.evaluations + 1 }
  (f.clockEdge, log)

def isFinished (f : Fetcher) : Bool :=
  f.halted || (f.rule.edges.any fun n => n ≤ f.rising)
    || f.rule.evaluations.contains f.evaluations || f.rule.limit ≤ f.evaluations

def signals (f : Fetcher) : List Signal :=
  [⟨"rising", 16, f.rising.toUInt64⟩, .bit "clk" f.clock, ⟨"evals", 64, f.evaluations.toUInt64⟩,
    .bit "rst_n" f.reset]

def setClock (level : Bool) (f : Fetcher) : Fetcher :=
  if f.stuck then f else { f with clock := level }

end Fetcher

instance : Design Fetcher where
  setClock level f := (f.setClock level, [])
  clock f := { answer := f.clock, design := f }
  setReset level f := ({ f with reset := level }, [])
  reset f := { answer := f.reset, design := f }
  evaluate f := f.evaluate
  finished f := { answer := f.isFinished, design := f }
  advance delta f := ({ f with time := f.time + delta }, [])
  signals f := { answer := f.signals, design := f }

/-- A fetcher that shows its two lines only, and does not follow the time. -/
structure PlainFetcher where
  inner : Fetcher

instance : Design PlainFetcher where
  setClock level f := (⟨f.inner.setClock level⟩, [])
  clock f := { answer := f.inner.clock, design := f }
  setReset level f := (⟨{ f.inner with reset := level }⟩, [])
  reset f := { answer := f.inner.reset, design := f }
  evaluate f := (⟨f.inner.evaluate.1⟩, f.inner.evaluate.2)
  finished f := { answer := f.inner.isFinished, design := f }

end HexBench
