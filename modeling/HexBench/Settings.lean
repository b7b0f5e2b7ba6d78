import HexBench.Image.Verdict
import HexBench.Plusarg

set_option autoImplicit false

namespace HexBench

structure Settings where
  logFile : Option String
  logLevel : String
  wavePath : Option String
  /-- The run is stopped once its time passes this. -/
  maxTime : Option UInt64
  loading : Image.Options
  arguments : List String
  deriving DecidableEq

namespace Settings

def defaultLogLevel : String := "info"

def defaultWavePath : String := "waveform.vcd"

/-- A given path wins over the flag that asks for the default one. -/
def wavePathOf (a : Plusargs) : Option String :=
  match a.value? "wave-path" with
  | some path => some path
  | none => if a.has "trace" then some defaultWavePath else none

/-- Only the time limit can be given badly. -/
def ofPlusargs (a : Plusargs) : Except (BadValue Numeral.Fault) Settings :=
  match a.read? "max-time" (Numeral.readUnsigned 64) with
  | .error e => .error e
  | .ok maxTime =>
    .ok {
      logFile := a.value? "log-file"
      logLevel := (a.value? "log-level").getD defaultLogLevel
      wavePath := wavePathOf a
      maxTime := maxTime.map Nat.toUInt64
      loading := ⟨a.has "hex-verify-checksum", a.has "hex-extended-records"⟩
      arguments := a.arguments }

end Settings
end HexBench
