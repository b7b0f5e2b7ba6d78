import HexBench.Text.Control
import HexBench.Text.Numeral

set_option autoImplicit false

namespace HexBench

inductive Level where
  | error
  | warn
  | info
  | debug
  | trace
  deriving DecidableEq

namespace Level

def number : Level → Nat
  | error => 1
  | warn => 2
  | info => 3
  | debug => 4
  | trace => 5

def name : Level → String
  | error => "error"
  | warn => "warn"
  | info => "info"
  | debug => "debug"
  | trace => "trace"

def all : List Level := [error, warn, info, debug, trace]

/-- A level by its number, or by its name in any case. -/
def read? (text : String) : Option Level :=
  let matching :=
    match Numeral.readUnsigned 64 text with
    | .ok n => fun l : Level => l.number == n
    | .error _ => fun l : Level => l.name.toList == text.toList.map Char.toLower
  all.find? matching

end Level

def Level.colour : Level → Nat
  | error => 1
  | warn => 3
  | info => 2
  | debug => 4
  | trace => 5

def Level.column (l : Level) : String :=
  String.ofList ((l.name.toList.map Char.toUpper).leftpad 5 ' ')

structure LogEntry where
  level : Level
  /-- The part of the program that it comes from. No line shows it, but filters may go by it. -/
  origin : String
  message : String
  deriving DecidableEq

namespace LogEntry

def coloured (colour : Nat) (text : String) : String :=
  "\x1b[3" ++ toString colour ++ "m" ++ text ++ "\x1b[0m"

def tail (e : LogEntry) : String := " " ++ Control.escapeAll e.message ++ "\n"

def terminalLine (e : LogEntry) : String := coloured e.level.colour e.level.column ++ e.tail

def fileLine (e : LogEntry) : String := e.level.column ++ e.tail

end LogEntry

abbrev LogFilter := LogEntry → Bool

def Level.filter (least : Level) : LogFilter := fun e => e.level.number ≤ least.number

/-- The filter that a variable of the environment asks for by one level, by the word that turns the
log off, or by no text at all, which stands for errors. Filters in another form, by the origin of an
entry for one, are filters all the same, but they are not read here. -/
def LogFilter.read? (text : String) : Option LogFilter :=
  if text.isEmpty then some Level.error.filter
  else if text.toList.map Char.toLower = "off".toList then some fun _ => false
  else (Level.read? text).map Level.filter

end HexBench
