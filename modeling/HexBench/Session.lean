import HexBench.Fill
import HexBench.Settings

set_option autoImplicit false

/-!
What lasts for the whole of a process: its arguments and files, the text it has written, a logger
that is installed once, and the options for loading that are set once.
-/

namespace HexBench

/-- Where log lines go. A log file keeps a place of its own, so that lines written after the file
was emptied again stand behind a gap. -/
inductive LogTarget where
  | terminal
  | file (h : FileHandle)

structure Logger where
  filter : LogFilter
  target : LogTarget

inductive LoggerError where
  | badLevel (text : String)
  | cannotCreate (path : String) (e : FileError)
  | alreadyInstalled
  deriving DecidableEq

def levelFault : String :=
  "error parsing level: expected one of \"error\", \"warn\", \"info\", \"debug\", \"trace\", "
    ++ "or a number 1-5"

def LoggerError.message : LoggerError → String
  | .badLevel text => "invalid +log-level=" ++ text ++ ": " ++ levelFault
  | .cannotCreate path e => "creating log file " ++ path ++ ": " ++ e.message
  | .alreadyInstalled =>
    "internal error: fail to setup log subscriber: "
      ++ "a global default trace dispatcher has already been set"

structure Session where
  arguments : List String
  /-- A filter that is used in place of the level of the settings. -/
  filter : Option LogFilter := none
  files : FileTree := {}
  stdout : String := ""
  stderr : String := ""
  logger : Option Logger := none
  loading : Option Image.Options := none

namespace Session

/-- Before a logger is installed nothing is logged. -/
def log (s : Session) (e : LogEntry) : Session :=
  match s.logger with
  | none => s
  | some l =>
    if l.filter e then
      match l.target with
      | .terminal => { s with stdout := s.stdout ++ e.terminalLine }
      | .file h =>
        let (h, files) := h.write (Bytes.ofString e.fileLine) s.files
        { s with files, logger := some { l with target := .file h } }
    else s

def logAll (s : Session) (es : List LogEntry) : Session := es.foldl log s

def complain (s : Session) (message : String) : Session :=
  { s with stderr := s.stderr ++ message ++ "\n" }

/-- Opens where the log is to go. A log file is made, or emptied. -/
def openLog (s : Session) (logFile : Option String) : Except LoggerError (LogTarget × FileTree) :=
  match logFile with
  | none => .ok (.terminal, s.files)
  | some path =>
    match s.files.create path with
    | .error e => .error (.cannotCreate path e)
    | .ok (location, files) => .ok (.file { location }, files)

/-- Installs a logger. The level is read first, then the log file is opened, and only then is it
found out that there is a logger already. -/
def setUpLogger (s : Session) (settings : Settings) : Option LoggerError × Session :=
  match Level.read? settings.logLevel with
  | none => (some (.badLevel settings.logLevel), s)
  | some level =>
    match s.openLog settings.logFile with
    | .error e => (some e, s)
    | .ok (target, files) =>
      let s := { s with files }
      match s.logger with
      | some _ => (some .alreadyInstalled, s)
      | none =>
        let filter := s.filter.getD level.filter
        (none, { s with logger := some { filter, target } })

/-- Sets the options for loading. Only the first call takes effect, and it is told so. -/
def configure (s : Session) (o : Image.Options) : Bool × Session :=
  match s.loading with
  | none => (true, { s with loading := some o })
  | some _ => (false, s)

def loadingOptions (s : Session) : Image.Options := s.loading.getD {}

def sources (s : Session) : Image.Sources := .ofFiles s.files

/-- What paths lead to once an event is reported. -/
def sourcesAfter (s : Session) (e : Fill.Event) : Image.Sources := (s.log e.entry).sources

def settings (s : Session) : Except (BadValue Numeral.Fault) Settings :=
  Settings.ofPlusargs ⟨s.arguments⟩

def settingsFault (e : BadValue Numeral.Fault) : String := e.message Numeral.Fault.message

def alreadyConfigured : LogEntry :=
  ⟨.debug, Fill.origin, "sim_init: loader already configured"⟩

/-- Installs a logger and sets the options for loading, as the arguments ask. The options are set
even if the logger is not installed. -/
def initialise (s : Session) : Session :=
  match s.settings with
  | .error e => s.complain ("sim_init: " ++ settingsFault e)
  | .ok settings =>
    let (fault, s) := s.setUpLogger settings
    let s := match fault with
      | none => s
      | some e => s.complain ("sim_init: " ++ e.message)
    let (first, s) := s.configure settings.loading
    if first then s else s.log alreadyConfigured

end Session

/-- What a host can ask for. Requests that fill the memory may name the number of its words
that they are to fill. -/
inductive Request where
  | configure (o : Image.Options)
  | initialise
  /-- With any settings, which need not be those that the arguments give. -/
  | setUpLogger (settings : Settings)
  | fill (path : String) (o : Image.Options) (words : Option Nat)
  | readmemh (name : Option Bytes) (hasMemory : Bool) (words : Option Nat)

inductive Answer where
  | done
  | configured (first : Bool)
  | noLogger (e : LoggerError)

/-- A simulator that hosts a session, with the one memory that its requests are about. -/
structure Host where
  session : Session
  memory : Memory

namespace Host

def fillFirst (h : Host) (words : Option Nat) (filling : Memory → Filled) : Host :=
  let filled := h.memory.fillFirst (words.getD h.memory.size) filling
  ⟨h.session.logAll filled.entries, filled.memory⟩

def perform (h : Host) : Request → Answer × Host
  | .configure o =>
    let (first, session) := h.session.configure o
    (.configured first, { h with session })
  | .initialise => (.done, { h with session := h.session.initialise })
  | .setUpLogger settings =>
    let (fault, session) := h.session.setUpLogger settings
    ((fault.map .noLogger).getD .done, { h with session })
  | .fill path o words => (.done, h.fillFirst words (HexBench.fill h.session.sources o path))
  | .readmemh name hasMemory words =>
    (.done, h.fillFirst words
      (HexBench.readmemh h.session.sourcesAfter h.session.loadingOptions name hasMemory))

def performAll (h : Host) : List Request → List (Answer × Host)
  | [] => []
  | r :: rest =>
    let next := h.perform r
    next :: next.2.performAll rest

end Host
end HexBench
