import HexBench.Text.Bytes

set_option autoImplicit false

namespace HexBench.Wave

inductive SinkError where
  | full
  | flushRefused
  deriving DecidableEq

def SinkError.message : SinkError → String
  | .full => "disk full"
  | .flushRefused => "flush refused"

structure Sink where
  /-- What was written, piece by piece. Of a write that failed only the part that fitted. -/
  pieces : Array Bytes := #[]
  /-- The number of bytes that still fit, if there is a limit. -/
  room : Option Nat := none
  refusesFlush : Bool := false
  /-- Calls of `flush`, refused ones too. -/
  flushes : Nat := 0

namespace Sink

def piecesFrom (s : Sink) (start : Nat) : List Bytes :=
  (s.pieces.extract start s.pieces.size).toList

def text (s : Sink) : Bytes := s.pieces.toList.flatten

def write (s : Sink) (piece : Bytes) : Option SinkError × Sink :=
  match s.room with
  | none => (none, { s with pieces := s.pieces.push piece })
  | some n =>
    if piece.length ≤ n then
      (none, { s with pieces := s.pieces.push piece, room := some (n - piece.length) })
    else (some .full, { s with pieces := s.pieces.push (piece.take n), room := some 0 })

def flush (s : Sink) : Option SinkError × Sink :=
  (if s.refusesFlush then some .flushRefused else none, { s with flushes := s.flushes + 1 })

def writeAll (s : Sink) : List Bytes → Option SinkError × Sink
  | [] => (none, s)
  | piece :: rest =>
    match s.write piece with
    | (some e, s) => (some e, s)
    | (none, s) => s.writeAll rest

structure Written where
  /-- The lines that were written whole. -/
  count : Nat
  error : Option SinkError
  sink : Sink

def writeLines (s : Sink) : List (List Bytes) → Written
  | [] => ⟨0, none, s⟩
  | line :: rest =>
    match s.writeAll line with
    | (some e, s) => ⟨0, some e, s⟩
    | (none, s) =>
      let w := s.writeLines rest
      { w with count := w.count + 1 }

end Sink
end HexBench.Wave
