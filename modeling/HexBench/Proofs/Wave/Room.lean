import HexBench.Proofs.Wave.Table

set_option autoImplicit false

namespace HexBench.Wave

namespace Sink

theorem writeAll_fits {s : Sink} {n : Nat} (h : s.room = some n) {pieces : List Bytes}
    (hfits : pieces.flatten.length ≤ n) :
    ∃ s', s.writeAll pieces = (none, s') ∧ s'.room = some (n - pieces.flatten.length) := by
  induction pieces generalizing s n with
  | nil => exact ⟨s, rfl, h⟩
  | cons piece pieces ih =>
    rw [List.flatten_cons, List.length_append] at hfits ⊢
    have hpiece : s.write piece =
        (none, { s with pieces := s.pieces.push piece, room := some (n - piece.length) }) := by
      simp only [write, h, if_pos (show piece.length ≤ n by omega)]
    rw [writeAll, hpiece, ← Nat.sub_sub]
    exact ih rfl (by omega)

theorem writeAll_full {s : Sink} {n : Nat} (h : s.room = some n) {pieces : List Bytes}
    (hshort : n < pieces.flatten.length) : ∃ s', s.writeAll pieces = (some .full, s') := by
  induction pieces generalizing s n with
  | nil => exact absurd hshort (Nat.not_lt_zero n)
  | cons piece pieces ih =>
    rw [List.flatten_cons, List.length_append] at hshort
    by_cases hfits : piece.length ≤ n
    · have hpiece : s.write piece =
          (none, { s with pieces := s.pieces.push piece, room := some (n - piece.length) }) := by
        simp only [write, h, if_pos hfits]
      rw [writeAll, hpiece]
      exact ih rfl (by omega)
    · rw [writeAll, write, h]
      simp only [if_neg hfits]
      exact ⟨_, rfl⟩

theorem writeLines_full {s : Sink} {n : Nat} (h : s.room = some n) {lines : List (List Bytes)}
    (hshort : n < lines.flatten.flatten.length) : (s.writeLines lines).error = some .full := by
  induction lines generalizing s n with
  | nil => exact absurd hshort (Nat.not_lt_zero n)
  | cons line lines ih =>
    rw [List.flatten_cons, List.flatten_append, List.length_append] at hshort
    by_cases hfits : line.flatten.length ≤ n
    · obtain ⟨s', hline, hroom⟩ := writeAll_fits h hfits
      simp only [writeLines, hline]
      exact ih hroom (by omega)
    · obtain ⟨s', hline⟩ := writeAll_full h (Nat.lt_of_not_le hfits)
      simp only [writeLines, hline]

theorem le_count_writeLines {s : Sink} {n : Nat} (h : s.room = some n)
    {lines : List (List Bytes)} {j : Nat} (hj : j ≤ lines.length) :
    j ≤ (s.writeLines lines).count ↔ (lines.take j).flatten.flatten.length ≤ n := by
  induction lines generalizing s n j with
  | nil =>
    obtain rfl : j = 0 := Nat.le_zero.mp hj
    exact iff_of_true (Nat.zero_le _) (Nat.zero_le n)
  | cons line lines ih =>
    cases j with
    | zero => exact iff_of_true (Nat.zero_le _) (Nat.zero_le n)
    | succ j =>
      rw [List.take_succ_cons, List.flatten_cons, List.flatten_append, List.length_append]
      by_cases hfits : line.flatten.length ≤ n
      · obtain ⟨s', hline, hroom⟩ := writeAll_fits h hfits
        have hrest := ih hroom (Nat.le_of_succ_le_succ hj)
        simp only [writeLines, hline]
        omega
      · obtain ⟨s', hline⟩ := writeAll_full h (Nat.lt_of_not_le hfits)
        simp only [writeLines, hline]
        omega

def Grows (s s' : Sink) : Prop := s.pieces.toList <+: s'.pieces.toList

theorem Grows.refl (s : Sink) : s.Grows s := List.prefix_refl _

theorem Grows.trans {s t u : Sink} (h : s.Grows t) (h' : t.Grows u) : s.Grows u :=
  List.IsPrefix.trans h h'

theorem Grows.text {s s' : Sink} (h : s.Grows s') :
    s'.text = s.text ++ (s'.piecesFrom s.pieces.size).flatten := by
  obtain ⟨new, hnew⟩ := h
  have hfrom : s'.piecesFrom s.pieces.size = new := by
    rw [piecesFrom, Array.toList_extract, ← Array.length_toList, ← Array.length_toList, ← hnew]
    simp
  rw [hfrom, Sink.text, ← hnew, List.flatten_append, Sink.text]

theorem write_grows (s : Sink) (piece : Bytes) : s.Grows (s.write piece).2 := by
  have hpush (piece : Bytes) : s.pieces.toList <+: (s.pieces.push piece).toList := by
    rw [Array.toList_push]
    exact List.prefix_append _ _
  rw [write]
  split
  · exact hpush piece
  · split
    · exact hpush piece
    · exact hpush _

theorem writeAll_grows (s : Sink) (pieces : List Bytes) : s.Grows (s.writeAll pieces).2 := by
  induction pieces generalizing s with
  | nil => exact Grows.refl s
  | cons piece pieces ih =>
    have hpiece := s.write_grows piece
    rw [writeAll]
    split
    · rename_i hwrite
      rwa [hwrite] at hpiece
    · rename_i rest hwrite
      rw [hwrite] at hpiece
      exact hpiece.trans (ih rest)

theorem writeLines_grows (s : Sink) (lines : List (List Bytes)) :
    s.Grows (s.writeLines lines).sink := by
  induction lines generalizing s with
  | nil => exact Grows.refl s
  | cons line lines ih =>
    have hline := s.writeAll_grows line
    rw [writeLines]
    split
    · rename_i hwrite
      rwa [hwrite] at hline
    · rename_i rest hwrite
      rw [hwrite] at hline
      exact hline.trans (ih rest)

/-- A sink with room for a number of bytes in all, which it has not used up, next to one that took
the same without a limit. -/
structure Within (n : Nat) (s u : Sink) : Prop where
  pieces : s.pieces = u.pieces
  room : ∃ r, s.room = some r ∧ s.text.length + r = n
  unlimited : u.room = none

/-- A sink that took its share of a longer text. -/
structure Cut (n : Nat) (s u : Sink) : Prop where
  text : s.text = u.text.take n
  short : n < u.text.length

theorem Cut.grows {n : Nat} {s u u' : Sink} (h : s.Cut n u) (hgrows : u.Grows u') : s.Cut n u' := by
  have hshort := h.short
  have htext := hgrows.text
  constructor
  · rw [htext, List.take_append_of_le_length (Nat.le_of_lt hshort), h.text]
  · rw [htext, List.length_append]
    omega

/-- How a limited sink comes out of writing, next to an unlimited one. -/
inductive Beside (n : Nat) (error : Option SinkError) (s u : Sink) : Prop where
  | within (herror : error = none) (h : s.Within n u)
  | cut (herror : error = some .full) (h : s.Cut n u)

theorem Within.text {n : Nat} {s u : Sink} (h : s.Within n u) : s.text = u.text := by
  rw [Sink.text, h.pieces, Sink.text]

theorem Within.write {n : Nat} {s u : Sink} (h : s.Within n u) (piece : Bytes) :
    Beside n (s.write piece).1 (s.write piece).2 (u.write piece).2 := by
  obtain ⟨r, hr, hn⟩ := h.room
  rw [h.text] at hn
  have hu : u.write piece = (none, { u with pieces := u.pieces.push piece }) := by
    simp only [Sink.write, h.unlimited]
  rw [hu]
  by_cases hfits : piece.length ≤ r
  · have hs : s.write piece =
        (none, { s with pieces := s.pieces.push piece, room := some (r - piece.length) }) := by
      simp only [Sink.write, hr, if_pos hfits]
    rw [hs]
    refine .within rfl ⟨congrArg (·.push piece) h.pieces, ⟨_, rfl, ?_⟩, h.unlimited⟩
    rw [text_push, h.text, List.length_append]
    omega
  · have hs : s.write piece =
        (some .full, { s with pieces := s.pieces.push (piece.take r), room := some 0 }) := by
      simp only [Sink.write, hr, if_neg hfits]
    rw [hs]
    refine .cut rfl ⟨?_, ?_⟩
    · rw [text_push, text_push, h.text, ← hn, List.take_length_add_append]
    · rw [text_push, List.length_append]
      omega

theorem Within.writeAll {n : Nat} {s u : Sink} (h : s.Within n u) (pieces : List Bytes) :
    Beside n (s.writeAll pieces).1 (s.writeAll pieces).2 (u.writeAll pieces).2 := by
  induction pieces generalizing s u with
  | nil => exact .within rfl h
  | cons piece pieces ih =>
    have hpiece := h.write piece
    have hunlimited := (write_unlimited h.unlimited piece).1
    simp only [Sink.writeAll]
    generalize s.write piece = limited at hpiece
    generalize u.write piece = unlimited at hpiece hunlimited
    obtain ⟨error, s'⟩ := limited
    obtain ⟨_, u'⟩ := unlimited
    cases hunlimited
    cases hpiece with
    | within herror h =>
      cases herror
      exact ih h
    | cut herror h =>
      cases herror
      exact .cut rfl (h.grows (u'.writeAll_grows pieces))

theorem Within.writeLines {n : Nat} {s u : Sink} (h : s.Within n u) (lines : List (List Bytes)) :
    Beside n (s.writeLines lines).error (s.writeLines lines).sink (u.writeLines lines).sink ∧
      ((s.writeLines lines).error = none →
        (s.writeLines lines).count = (u.writeLines lines).count) := by
  induction lines generalizing s u with
  | nil => exact ⟨.within rfl h, fun _ => rfl⟩
  | cons line lines ih =>
    have hline := h.writeAll line
    have hunlimited := (writeAll_unlimited h.unlimited line).1
    simp only [Sink.writeLines]
    generalize s.writeAll line = limited at hline
    generalize u.writeAll line = unlimited at hline hunlimited
    obtain ⟨error, s'⟩ := limited
    obtain ⟨_, u'⟩ := unlimited
    cases hunlimited
    cases hline with
    | within herror h =>
      cases herror
      obtain ⟨hbeside, hcount⟩ := ih h
      exact ⟨hbeside, fun herror => congrArg (· + 1) (hcount herror)⟩
    | cut herror h =>
      cases herror
      exact ⟨.cut rfl (h.grows (u'.writeLines_grows lines)),
        fun hnone => absurd hnone (Option.some_ne_none _)⟩

end Sink

namespace Dump

theorem writeHeader_grows (d : Dump) (time : UInt64) (signals : List Signal) :
    d.sink.Grows (d.writeHeader time signals).dump.sink := by
  simp only [writeHeader]
  split
  · exact d.sink.writeLines_grows _
  · exact d.sink.writeLines_grows _

theorem writeChanges_grows (d : Dump) (time : UInt64) (signals : List Signal) :
    d.sink.Grows (d.writeChanges time signals).dump.sink := d.sink.writeLines_grows _

theorem sample_grows (d : Dump) (time : UInt64) (signals : List Signal) :
    d.sink.Grows (d.sample time signals).dump.sink := by
  have hheader := d.writeHeader_grows time signals
  simp only [sample]
  split
  · exact d.writeChanges_grows time signals
  · split
    · exact hheader
    · exact hheader.trans (writeChanges_grows _ time signals)

/-- The same dump on a limited sink that is not used up and on an unlimited one. -/
structure Within (n : Nat) (d e : Dump) : Prop where
  scope : d.scope = e.scope
  vars : d.vars = e.vars
  started : d.started = e.started
  sink : d.sink.Within n e.sink

end Dump

/-- How a dump on a limited sink comes out of a sample, next to one on an unlimited sink. -/
inductive Reply.Beside (n : Nat) (r q : Reply) : Prop where
  | within (herror : r.error = none) (h : r.dump.Within n q.dump) (hevents : r.events = q.events)
  | cut (herror : r.error = some .full) (h : r.dump.sink.Cut n q.dump.sink)

theorem Reply.Beside.behind {n : Nat} {r q : Reply} (h : r.Beside n q) {es fs : List Event}
    (hevents : es = fs) :
    Reply.Beside n { r with events := es ++ r.events } { q with events := fs ++ q.events } := by
  cases h with
  | within herror hdump hsame => exact .within herror hdump (by rw [hevents, hsame])
  | cut herror hcut => exact .cut herror hcut

namespace Dump

variable {n : Nat} {d e : Dump}

theorem Within.writeChanges (h : d.Within n e) (time : UInt64) (signals : List Signal) :
    (d.writeChanges time signals).Beside n (e.writeChanges time signals) := by
  simp only [Dump.writeChanges, h.vars]
  obtain ⟨hbeside, hcount⟩ := h.sink.writeLines _
  cases hbeside with
  | within herror hsink =>
    exact .within herror ⟨h.scope, by rw [hcount herror], h.started, hsink⟩ rfl
  | cut herror hsink => exact .cut herror hsink

theorem Within.writeHeader (h : d.Within n e) (time : UInt64) (signals : List Signal) :
    (d.writeHeader time signals).Beside n (e.writeHeader time signals) := by
  have hopening : d.opening = e.opening := by rw [opening, h.scope, opening]
  simp only [Dump.writeHeader, hopening, h.vars]
  generalize List.map Line.bytes _ = lines
  have hunlimited := (Sink.writeLines_unlimited h.sink.unlimited lines).1
  obtain ⟨hbeside, _⟩ := h.sink.writeLines lines
  rw [hunlimited]
  cases hbeside with
  | within herror hsink =>
    rw [herror]
    exact .within rfl ⟨h.scope, rfl, rfl, hsink⟩ rfl
  | cut herror hsink =>
    rw [herror]
    exact .cut rfl hsink

theorem Within.sample (h : d.Within n e) (time : UInt64) (signals : List Signal) :
    (d.sample time signals).Beside n (e.sample time signals) := by
  cases hstarted : e.started with
  | true =>
    simp only [Dump.sample, h.started, hstarted, if_true]
    exact h.writeChanges time signals
  | false =>
    have hunlimited := (writeHeader_unlimited h.sink.unlimited ⟨time, signals⟩).1
    simp only [Dump.sample, h.started, hstarted, Bool.false_eq_true, if_false, hunlimited]
    cases h.writeHeader time signals with
    | within herror hheader hevents =>
      simp only [herror]
      exact (hheader.writeChanges time signals).behind hevents
    | cut herror hcut =>
      simp only [herror]
      exact .cut herror (hcut.grows (writeChanges_grows _ time signals))

end Dump
end HexBench.Wave
