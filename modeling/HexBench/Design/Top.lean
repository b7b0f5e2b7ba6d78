import HexBench.Design.Shim
import HexBench.Text.Leading

set_option autoImplicit false

/-!
A top that stands in for a generated one: it reads its own settings from the arguments of the run,
asks for its memory to be filled at the first evaluation, fetches one word at every rising clock
edge out of reset, and leaves a report when it is dropped.
-/

namespace HexBench

namespace Top

def lastAfter? (lead : String) (arguments : List String) : Option String :=
  arguments.reverse.findSome? fun a =>
    if lead.toList.isPrefixOf a.toList then some (String.ofList (a.toList.drop lead.length))
    else none

def lastNumber? (lead : String) (arguments : List String) : Option UInt64 :=
  (lastAfter? lead arguments).map Leading.number

structure Setup where
  image : String
  words : Nat
  /-- Each word of the memory before it is filled. -/
  word : UInt32
  /-- The design finishes after this many evaluations. -/
  limit : Nat

def Setup.ofArguments (arguments : List String) : Setup where
  image := (lastAfter? "+image=" arguments).getD "prog.hex"
  words := ((lastNumber? "+words=" arguments).getD 16).toUInt32.toNat
  word := ((lastNumber? "+fill=" arguments).getD 0).toUInt32
  limit := ((lastNumber? "+limit=" arguments).getD 400).toNat

def refuses (arguments : List String) : Bool :=
  arguments.any fun a => "+fail-alloc".toList.isPrefixOf a.toList

end Top

structure Top where
  arguments : List String
  setup : Top.Setup
  /-- Answers the request for the memory, of which there is none if it has no words. -/
  filling : Option Bytes → Bool → Memory → Filled
  clock : Bool := false
  reset : Bool := true
  /-- The clock at the last evaluation. -/
  before : Bool := false
  evaluations : Nat := 0
  time : UInt64 := 0
  pc : Nat := 0
  fetched : Array UInt32 := #[]
  halted : Bool := false
  memory : Memory

namespace Top

def ofArguments (arguments : List String) (filling : Option Bytes → Bool → Memory → Filled) : Top :=
  let setup := Setup.ofArguments arguments
  { arguments, setup, filling, memory := Array.replicate setup.words setup.word }

def load (t : Top) : Top × List LogEntry :=
  if t.evaluations = 1 then
    let filled := t.filling (some (Bytes.ofString t.setup.image)) (!t.memory.isEmpty) t.memory
    ({ t with memory := filled.memory }, filled.entries)
  else (t, [])

def fetch (t : Top) : Top :=
  let word := t.memory.getD (t.pc % t.memory.size) 0
  { t with fetched := t.fetched.push word, pc := t.pc + 1, halted := word == 0 }

/-- What a clock edge does once the memory is filled. The limit is looked at before the reset. -/
def clockEdge (t : Top) : Top :=
  let isRising := t.clock && !t.before
  let t := { t with before := t.clock, halted := t.halted || t.setup.limit ≤ t.evaluations }
  if !t.reset then { t with pc := 0 }
  else if isRising && !t.halted then t.fetch
  else t

def evaluate (t : Top) : Top × List LogEntry :=
  let (t, log) := load { t with evaluations := t.evaluations + 1 }
  (t.clockEdge, log)

def bit (b : Bool) : String := if b then "1" else "0"

def wordsText (words : Array UInt32) : String :=
  String.join (words.toList.map fun w => " " ++ Hex.number 8 w.toNat)

def reportPath : String := "tb_top.report"

def report (t : Top) : String :=
  let lines := ["args " ++ toString t.arguments.length] ++ t.arguments.map ("arg " ++ ·)
    ++ ["evals " ++ toString t.evaluations, "time " ++ toString t.time.toNat,
      "clk " ++ bit t.clock, "rst_n " ++ bit t.reset, "finished " ++ bit t.halted,
      "fetched" ++ wordsText t.fetched, "mem" ++ wordsText t.memory]
  String.join (lines.map (· ++ "\n"))

def shim : Shim Top where
  refuses := refuses
  make := ofArguments
  leaves t := [(reportPath, Bytes.ofString t.report)]
  paths arguments := [(Setup.ofArguments arguments).image, reportPath]

end Top

instance : Design Top where
  setClock level t := ({ t with clock := level }, [])
  clock t := { answer := t.clock, design := t }
  setReset level t := ({ t with reset := level }, [])
  reset t := { answer := t.reset, design := t }
  evaluate t := t.evaluate
  finished t := { answer := t.halted, design := t }
  advance delta t := ({ t with time := t.time + delta }, [])

end HexBench
