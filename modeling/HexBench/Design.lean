import HexBench.Log
import HexBench.Wave.Signal

set_option autoImplicit false

namespace HexBench

open Wave (Signal)

/-- What a look at a design gives. It may leave the design in another state, and may be logged. -/
structure Look (σ α : Type) where
  answer : α
  design : σ
  log : List LogEntry := []

def Look.lines {σ : Type} (clk : Look σ Bool) (reset : σ → Look σ Bool) : Look σ (List Signal) :=
  let rst := reset clk.design
  { answer := [Signal.bit "clk" clk.answer, Signal.bit "rst_n" rst.answer]
    design := rst.design
    log := clk.log ++ rst.log }

/-- What the bench needs of a design with states `σ`: two lines that the bench drives, an evaluation
that lets the design settle, and looks at it. Whatever the bench does, the design may log. -/
class Design (σ : Type) where
  setClock : Bool → σ → σ × List LogEntry
  clock : σ → Look σ Bool
  /-- The reset line holds the design in reset while it is low. -/
  setReset : Bool → σ → σ × List LogEntry
  reset : σ → Look σ Bool
  evaluate : σ → σ × List LogEntry
  finished : σ → Look σ Bool
  advance : UInt64 → σ → σ × List LogEntry := fun _ s => (s, [])
  signals : σ → Look σ (List Signal) := fun s => (clock s).lines reset

end HexBench
