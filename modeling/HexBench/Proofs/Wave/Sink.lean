import HexBench.Wave.Line
import HexBench.Wave.Sink

set_option autoImplicit false

namespace HexBench.Wave

def written (lines : List Line) : Bytes := (lines.map Line.bytes).flatten.flatten

theorem written_append (xs ys : List Line) : written (xs ++ ys) = written xs ++ written ys := by
  rw [written, List.map_append, List.flatten_append, List.flatten_append]
  rfl

theorem written_flatMap {ι : Type} (indices : List ι) (lines : ι → List Line) :
    written (indices.flatMap lines) = indices.flatMap fun i => written (lines i) := by
  induction indices with
  | nil => rfl
  | cons i rest ih => rw [List.flatMap_cons, List.flatMap_cons, written_append, ih]

namespace Sink

theorem text_push (s : Sink) (piece : Bytes) (room : Option Nat) :
    ({ s with pieces := s.pieces.push piece, room } : Sink).text = s.text ++ piece := by
  simp [text]

theorem write_ok {s s' : Sink} {piece : Bytes} (h : s.write piece = (none, s')) :
    s'.text = s.text ++ piece := by
  rw [write] at h
  split at h
  · cases h
    exact s.text_push piece s.room
  · split at h
    · cases h
      exact s.text_push piece _
    · cases h

theorem write_unlimited {s : Sink} (h : s.room = none) (piece : Bytes) :
    (s.write piece).1 = none ∧ (s.write piece).2.room = none := by
  simp only [write, h, and_self]

theorem writeAll_ok {s s' : Sink} {pieces : List Bytes} (h : s.writeAll pieces = (none, s')) :
    s'.text = s.text ++ pieces.flatten := by
  induction pieces generalizing s with
  | nil =>
    cases h
    rw [List.flatten_nil, List.append_nil]
  | cons piece pieces ih =>
    rw [writeAll] at h
    split at h
    · cases h
    · rename_i rest hrest
      rw [ih h, write_ok hrest, List.flatten_cons, List.append_assoc]

theorem writeAll_unlimited {s : Sink} (h : s.room = none) (pieces : List Bytes) :
    (s.writeAll pieces).1 = none ∧ (s.writeAll pieces).2.room = none := by
  induction pieces generalizing s with
  | nil => exact ⟨rfl, h⟩
  | cons piece pieces ih =>
    obtain ⟨hnone, hroom⟩ := write_unlimited h piece
    rw [writeAll]
    split
    · rename_i hfailed
      rw [hfailed] at hnone
      cases hnone
    · rename_i rest hrest
      rw [hrest] at hroom
      exact ih hroom

theorem writeLines_ok {s : Sink} {lines : List Line}
    (h : (s.writeLines (lines.map Line.bytes)).error = none) :
    (s.writeLines (lines.map Line.bytes)).count = lines.length ∧
      (s.writeLines (lines.map Line.bytes)).sink.text = s.text ++ written lines := by
  induction lines generalizing s with
  | nil => exact ⟨rfl, (List.append_nil s.text).symm⟩
  | cons line lines ih =>
    rw [List.map_cons] at h ⊢
    cases hline : s.writeAll line.bytes with
    | mk failed rest =>
      cases failed with
      | some e =>
        simp only [writeLines, hline] at h
        cases h
      | none =>
        simp only [writeLines, hline] at h ⊢
        obtain ⟨hcount, htext⟩ := ih h
        refine ⟨congrArg (· + 1) hcount, ?_⟩
        rw [htext, writeAll_ok hline, ← List.singleton_append (l := lines), written_append,
          List.append_assoc]
        simp only [written, List.map_cons, List.map_nil, List.flatten_cons, List.flatten_nil,
          List.append_nil]

theorem writeLines_unlimited {s : Sink} (h : s.room = none) (lines : List (List Bytes)) :
    (s.writeLines lines).error = none ∧ (s.writeLines lines).sink.room = none := by
  induction lines generalizing s with
  | nil => exact ⟨rfl, h⟩
  | cons line lines ih =>
    obtain ⟨hnone, hroom⟩ := writeAll_unlimited h line
    cases hline : s.writeAll line with
    | mk failed rest =>
      rw [hline] at hnone hroom
      obtain rfl : failed = none := hnone
      simp only [writeLines, hline]
      exact ih hroom

end Sink
end HexBench.Wave
