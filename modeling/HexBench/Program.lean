import HexBench.Bench.Run
import HexBench.Design.Shim
import HexBench.Session
import HexBench.Wave.File

set_option autoImplicit false

/-!
The test bench program: it takes its settings from the arguments, runs the top that it is linked
with until that finishes or its time is up, and always ends well.
-/

namespace HexBench

structure Recording where
  session : Session
  waves : Option Wave.File := none

namespace Session

def programOrigin : String := "tb_top"

def logAction (s : Session) (a : Bench.Action) : Session :=
  match a.entry? with
  | none => s
  | some e => s.log e

def leave (s : Session) (path : String) (content : Bytes) : Session :=
  match s.files.create path with
  | .error _ => s
  | .ok (location, files) => { s with files := files.write location 0 content }

def leaveAll (s : Session) (files : List (String × Bytes)) : Session :=
  files.foldl (fun s (path, content) => s.leave path content) s

/-- Sets the logger and the options for loading. Without a logger that can be installed, the program
says so and goes on. -/
def prepare (s : Session) (settings : Settings) : Session :=
  let (fault, s) := s.setUpLogger settings
  let s := match fault with
    | none => s
    | some e => s.complain e.message
  (s.configure settings.loading).2

end Session

namespace Recording

/-- Opens a wave file. Without one that can be made, the program runs without waves. -/
def start (s : Session) (wavePath : Option String) : Recording :=
  match wavePath with
  | none => { session := s }
  | some path =>
    match Wave.File.create s.files path with
    | .error e =>
      { session := s.log ⟨.error, Session.programOrigin, e.message ++ ", running without waves"⟩ }
    | .ok (file, files) =>
      { session := { s with files }.log (Wave.Event.opened path).entry, waves := some file }

def write (r : Recording) (a : Bench.Action) : Recording :=
  match r.waves, a with
  | some w, .traceText pieces =>
    let (w, files) := w.writeAll pieces r.session.files
    { session := { r.session with files }, waves := some w }
  | some w, .call .close =>
    let (w, files) := w.flush r.session.files
    { session := { r.session with files }, waves := some w }
  | _, _ => r

def carry (r : Recording) (a : Bench.Action) : Recording :=
  let r := r.write a
  { r with session := r.session.logAction a }

def carryOut (r : Recording) (actions : List Bench.Action) : Recording := actions.foldl carry r

section
variable {σ : Type} [Design σ]

/-- The top is made before the wave file is opened, but does nothing until it is run. -/
def top (r : Recording) (shim : Shim σ) (settings : Settings) : σ :=
  shim.make settings.arguments (readmemh r.session.sourcesAfter r.session.loadingOptions)

def bench (r : Recording) (shim : Shim σ) (settings : Settings) : Bench σ Wave.Dump :=
  let trace := r.waves.map fun _ => ({ scope := Wave.File.scope } : Wave.Dump)
  Bench.simulate (r.top shim settings) trace settings.maxTime

def run (r : Recording) (shim : Shim σ) (settings : Settings) : Session × σ :=
  let b := r.bench shim settings
  ((r.carryOut b.journal.toList).session.leaveAll (shim.leaves b.design), b.design)

end

end Recording

namespace Session

variable {σ : Type}

def runProgram [Design σ] (s : Session) (shim : Shim σ) : Session × Option σ :=
  match s.settings with
  | .error e => (s.complain (settingsFault e), none)
  | .ok settings =>
    let (log, refusal) := shim.vet settings.arguments
    let s := (s.prepare settings).logAll log
    match refusal with
    | some e => (s.log ⟨.error, programOrigin, e.message⟩, none)
    | none => ((Recording.start s settings.wavePath).run shim settings).map id some

def paths (s : Session) (shim : Shim σ) : List String :=
  let opened := match s.settings with
    | .error _ => []
    | .ok settings => settings.logFile.toList ++ settings.wavePath.toList
  shim.paths s.arguments ++ opened

end Session
end HexBench
