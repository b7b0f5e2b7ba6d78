import HexBench.Text.Bytes

set_option autoImplicit false

namespace HexBench.Bytes

theorem lines_cons (b : UInt8) (s : Bytes) : lines (b :: s) = (lines s).cons b := rfl

theorem lines_lineFeed (s : Bytes) :
    lines (lineFeed :: s) = { lines s with ended := [] :: (lines s).ended } := by
  rw [lines_cons, Lines.cons, if_pos rfl]

theorem lines_line_append (line s : Bytes) (h : lineFeed ∉ line) :
    lines (line ++ lineFeed :: s) = { lines s with ended := line :: (lines s).ended } := by
  induction line with
  | nil => exact lines_lineFeed s
  | cons b line ih =>
    simp only [List.mem_cons, not_or] at h
    rw [List.cons_append, lines_cons, ih h.2, Lines.cons, if_neg (Ne.symm h.1)]

theorem lines_flatMap (ls : List Bytes) (h : ∀ line ∈ ls, lineFeed ∉ line) :
    lines (ls.flatMap (· ++ [lineFeed])) = ⟨ls, []⟩ := by
  induction ls with
  | nil => rfl
  | cons line ls ih =>
    have htail := ih fun l hl => h l (List.mem_cons_of_mem line hl)
    rw [List.flatMap_cons, List.append_assoc, List.singleton_append,
      lines_line_append line _ (h line List.mem_cons_self), htail]

theorem all_lines_flatMap (ls : List Bytes) (h : ∀ line ∈ ls, lineFeed ∉ line) :
    (lines (ls.flatMap (· ++ [lineFeed]))).all = ls := by
  rw [lines_flatMap ls h]
  rfl

theorem lines_unended (line : Bytes) (h : lineFeed ∉ line) : lines line = ⟨[], line⟩ := by
  induction line with
  | nil => rfl
  | cons b line ih =>
    simp only [List.mem_cons, not_or] at h
    rw [lines_cons, ih h.2, Lines.cons, if_neg (Ne.symm h.1)]

theorem ended_ne_nil {s : Bytes} (h : lineFeed ∈ s) : (lines s).ended ≠ [] := by
  induction s with
  | nil => cases h
  | cons b s ih =>
    rw [lines_cons, Lines.cons]
    split
    · exact List.cons_ne_nil _ _
    · rename_i hb
      have hs := ih ((List.mem_cons.mp h).resolve_left (Ne.symm hb))
      split
      · contradiction
      · exact List.cons_ne_nil _ _

/-- The last line of the text, if it has any, is ended by a line feed. -/
def Complete (s : Bytes) : Prop := ∀ b, s.getLast? = some b → b = lineFeed

theorem Complete.of_cons {b c : UInt8} {s : Bytes} (h : Complete (b :: c :: s)) :
    Complete (c :: s) := fun d hd => h d (by rwa [List.getLast?_cons_cons])

theorem Complete.lineFeed_mem {b : UInt8} {s : Bytes} (h : Complete (b :: s)) :
    lineFeed ∈ b :: s := by
  have hlast := List.getLast?_eq_some_getLast (List.cons_ne_nil b s)
  rw [← h _ hlast]
  exact List.getLast_mem _

theorem lines_append {s : Bytes} (h : Complete s) (t : Bytes) :
    lines (s ++ t) = ⟨(lines s).ended ++ (lines t).ended, (lines t).rest⟩ := by
  induction s with
  | nil => rfl
  | cons b s ih =>
    cases s with
    | nil =>
      obtain rfl : b = lineFeed := h b rfl
      exact lines_lineFeed t
    | cons c s =>
      have hne := ended_ne_nil h.of_cons.lineFeed_mem
      obtain ⟨line, more, hended⟩ := List.exists_cons_of_ne_nil hne
      rw [List.cons_append, lines_cons, ih h.of_cons, lines_cons b (c :: s), Lines.cons, Lines.cons,
        hended]
      split <;> rfl

theorem all_lines_append {s : Bytes} (h : Complete s) (t : Bytes) :
    (lines (s ++ t)).all = (lines s).all ++ (lines t).all := by
  have hrest : (lines s).rest = [] := by
    have hlines := lines_append h []
    rw [List.append_nil] at hlines
    rw [hlines]
    rfl
  simp only [lines_append h, Lines.all, hrest, List.isEmpty_nil, if_true]
  split
  · rfl
  · rw [List.append_assoc]

/-- A place in a text for one line. What follows the line is nothing, or begins with the line feed
that ends it. -/
structure LinePlace where
  before : Bytes
  after : Bytes
  begins : Complete before
  ends : after = [] ∨ after.head? = some lineFeed

def LinePlace.put (p : LinePlace) (line : Bytes) : Bytes := p.before ++ line ++ p.after

def LinePlace.without (p : LinePlace) : Bytes := p.before ++ p.after.tail

theorem LinePlace.all_lines_without (p : LinePlace) :
    (lines p.without).all = (lines p.before).all ++ (lines p.after.tail).all :=
  all_lines_append p.begins _

theorem LinePlace.all_lines_put (p : LinePlace) {line : Bytes} (h : lineFeed ∉ line)
    (hne : line ≠ []) :
    (lines (p.put line)).all = (lines p.before).all ++ line :: (lines p.after.tail).all := by
  have hline : (lines (line ++ p.after)).all = line :: (lines p.after.tail).all := by
    rcases p.ends with hnone | hended
    · rw [hnone, List.append_nil, lines_unended line h, Lines.all,
        if_neg (by simpa using hne)]
      rfl
    · obtain ⟨rest, hrest⟩ := List.head?_eq_some_iff.mp hended
      rw [hrest, lines_line_append line rest h, List.tail_cons, Lines.all, Lines.all]
      split <;> rfl
  rw [put, List.append_assoc, all_lines_append p.begins, hline]

theorem trimEnd_prefix (s : Bytes) : s.trimEnd <+: s := by
  rw [trimEnd, ← List.reverse_suffix, List.reverse_reverse]
  exact List.dropWhile_suffix isBlank

theorem trimEnd_append_blanks (s : Bytes) {blanks : Bytes}
    (h : ∀ b ∈ blanks, isBlank b = true) : trimEnd (s ++ blanks) = trimEnd s := by
  rw [trimEnd, trimEnd, List.reverse_append, List.dropWhile_append_of_pos (by simpa using h)]

theorem trimEnd_append_cons (s t : Bytes) {b : UInt8} (hb : isBlank b = false) :
    trimEnd (s ++ b :: t) = s ++ b :: trimEnd t := by
  have hkept : (b :: s.reverse).dropWhile isBlank = b :: s.reverse :=
    List.dropWhile_cons_of_neg (by simp [hb])
  rw [trimEnd, trimEnd, List.reverse_append, List.reverse_cons, List.append_assoc,
    List.singleton_append, List.dropWhile_append]
  split
  · rename_i hblank
    rw [hkept, List.isEmpty_iff.mp hblank, List.reverse_cons, List.reverse_reverse]
    rfl
  · rw [List.reverse_append, List.reverse_cons, List.reverse_reverse, List.append_assoc]
    rfl

theorem trimEnd_append (s blanks : Bytes) (b : UInt8) (hb : isBlank b = false)
    (hblanks : ∀ c ∈ blanks, isBlank c = true) : trimEnd (s ++ b :: blanks) = s ++ [b] := by
  have hnone : trimEnd blanks = [] := trimEnd_append_blanks [] hblanks
  rw [trimEnd_append_cons s blanks hb, hnone]

end HexBench.Bytes
