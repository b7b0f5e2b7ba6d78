import HexBench.Proofs.Text.Lines
import Mathlib.Data.List.DropRight

set_option autoImplicit false

namespace HexBench.Bytes

/-- The text that is cut into these lines. -/
def Lines.text (t : Lines) : Bytes := t.ended.flatMap (· ++ [lineFeed]) ++ t.rest

/-- No line has a line feed in it. -/
structure Lines.Unbroken (t : Lines) : Prop where
  ended : ∀ line ∈ t.ended, lineFeed ∉ line
  rest : lineFeed ∉ t.rest

theorem unbroken_lines (s : Bytes) : (lines s).Unbroken := by
  induction s with
  | nil => exact ⟨List.forall_mem_nil _, List.not_mem_nil⟩
  | cons b s ih =>
    rw [lines_cons, Lines.cons]
    split
    · exact ⟨List.forall_mem_cons.mpr ⟨List.not_mem_nil, ih.ended⟩, ih.rest⟩
    · rename_i hb
      split
      · exact ⟨ih.ended, List.not_mem_cons_of_ne_of_not_mem (Ne.symm hb) ih.rest⟩
      · rename_i line more hended
        have hlines := ih.ended
        rw [hended, List.forall_mem_cons] at hlines
        have hfirst : lineFeed ∉ b :: line :=
          List.not_mem_cons_of_ne_of_not_mem (Ne.symm hb) hlines.1
        exact ⟨List.forall_mem_cons.mpr ⟨hfirst, hlines.2⟩, ih.rest⟩

theorem lineFeed_notMem_lines (s : Bytes) : ∀ line ∈ (lines s).all, lineFeed ∉ line := by
  have hs := unbroken_lines s
  intro line hline
  rw [Lines.all] at hline
  split at hline
  · exact hs.ended line hline
  · rcases List.mem_append.mp hline with hline | hline
    · exact hs.ended line hline
    · rw [List.mem_singleton.mp hline]
      exact hs.rest

theorem text_lines (s : Bytes) : (lines s).text = s := by
  induction s with
  | nil => rfl
  | cons b s ih =>
    rw [lines_cons, Lines.cons]
    split
    · rename_i hb
      rw [hb]
      exact congrArg (lineFeed :: ·) ih
    · split
      · rename_i hended
        rw [Lines.text, hended] at ih
        rw [Lines.text, hended]
        exact congrArg (b :: ·) ih
      · rename_i line more hended
        rw [Lines.text, hended] at ih
        exact congrArg (b :: ·) ih

theorem complete_flatMap (ls : List Bytes) : Complete (ls.flatMap (· ++ [lineFeed])) := by
  intro b hb
  obtain rfl | ⟨front, line, rfl⟩ := ls.eq_nil_or_concat
  · cases hb
  · rw [List.concat_eq_append, List.flatMap_append, List.flatMap_singleton, ← List.append_assoc,
      List.getLast?_concat] at hb
    exact (Option.some.inj hb).symm

theorem lines_text {t : Lines} (h : t.Unbroken) : lines t.text = t := by
  rw [Lines.text, lines_append (complete_flatMap t.ended), lines_flatMap t.ended h.ended,
    lines_unended t.rest h.rest, List.append_nil]

section Strike

variable (gone : Nat → Bytes → Bool)

def marked (ls : List Bytes) : List (Bool × Bytes) :=
  ls.mapIdx fun i line => (gone (i + 1) line, line)

def kept (ls : List Bytes) : List Bytes := ((marked gone ls).filter fun m => !m.1).map Prod.snd

def struck (ls : List Bytes) : List Bytes := ((marked gone ls).filter Prod.fst).map Prod.snd

def strike (s : Bytes) : Bytes :=
  let t := lines s
  Lines.text {
    ended := kept gone t.ended
    rest := if gone (t.ended.length + 1) t.rest then [] else t.rest }

theorem marked_cons (line : Bytes) (ls : List Bytes) :
    marked gone (line :: ls) = (gone 1 line, line) :: marked (fun n => gone (n + 1)) ls :=
  List.mapIdx_cons

theorem marked_concat (ls : List Bytes) (line : Bytes) :
    marked gone (ls ++ [line]) = marked gone ls ++ [(gone (ls.length + 1) line, line)] :=
  List.mapIdx_concat

theorem map_snd_marked (ls : List Bytes) : (marked gone ls).map Prod.snd = ls := by
  induction ls generalizing gone with
  | nil => rfl
  | cons line ls ih => rw [marked_cons, List.map_cons, ih]

theorem marked_takeWhile (p : Bytes → Bool) (ls : List Bytes) :
    marked gone (ls.takeWhile p) = (marked gone ls).takeWhile fun m => p m.2 := by
  induction ls generalizing gone with
  | nil => rfl
  | cons line ls ih =>
    rw [marked_cons, List.takeWhile_cons, List.takeWhile_cons]
    split
    · rw [marked_cons, ih]
    · rfl

theorem marked_const (p : Bytes → Bool) (ls : List Bytes) :
    marked (fun _ => p) ls = ls.map fun line => (p line, line) := by
  induction ls with
  | nil => rfl
  | cons line ls ih => rw [marked_cons, List.map_cons, ih]

theorem kept_concat (ls : List Bytes) (line : Bytes) :
    kept gone (ls ++ [line]) =
      kept gone ls ++ if gone (ls.length + 1) line then [] else [line] := by
  rw [kept, marked_concat, List.filter_append, List.map_append, kept]
  congr 1
  cases gone (ls.length + 1) line <;> rfl

theorem mem_of_mem_kept {ls : List Bytes} {line : Bytes} (h : line ∈ kept gone ls) : line ∈ ls := by
  obtain ⟨m, hm, rfl⟩ := List.mem_map.mp h
  rw [← map_snd_marked gone ls]
  exact List.mem_map_of_mem (List.mem_of_mem_filter hm)

theorem all_lines_strike (s : Bytes) : (lines (strike gone s)).all = kept gone (lines s).all := by
  have hs := unbroken_lines s
  rw [strike, lines_text]
  · cases hrest : (lines s).rest with
    | nil => simp [Lines.all, hrest]
    | cons b rest =>
      simp only [Lines.all, hrest, List.isEmpty_cons, Bool.false_eq_true, if_false, kept_concat]
      split <;> simp
  · refine ⟨fun line hline => hs.ended line (mem_of_mem_kept gone hline), ?_⟩
    dsimp only
    split
    · exact List.not_mem_nil
    · exact hs.rest

end Strike

section Pad

variable (blanks : Nat → Bytes)

def padded (ls : List Bytes) : List Bytes := ls.mapIdx fun i line => line ++ blanks (i + 1)

def pad (s : Bytes) : Bytes :=
  let t := lines s
  Lines.text {
    ended := padded blanks t.ended
    rest := if t.rest.isEmpty then [] else t.rest ++ blanks (t.ended.length + 1) }

theorem lines_pad (h : ∀ n, lineFeed ∉ blanks n) (s : Bytes) : lines (pad blanks s) = {
    ended := padded blanks (lines s).ended
    rest := if (lines s).rest.isEmpty then []
      else (lines s).rest ++ blanks ((lines s).ended.length + 1) } := by
  have hs := unbroken_lines s
  apply lines_text
  refine ⟨fun line hline => ?_, ?_⟩
  · obtain ⟨i, hi, rfl⟩ := List.mem_mapIdx.mp hline
    exact fun hmem => (List.mem_append.mp hmem).elim (hs.ended _ (List.getElem_mem hi)) (h _)
  · dsimp only
    split
    · exact List.not_mem_nil
    · exact fun hmem => (List.mem_append.mp hmem).elim hs.rest (h _)

end Pad

def crlf (s : Bytes) : Bytes := s.flatMap fun b => if b = lineFeed then [13, lineFeed] else [b]

theorem lines_crlf (s : Bytes) :
    lines (crlf s) = ⟨(lines s).ended.map (· ++ [13]), (lines s).rest⟩ := by
  induction s with
  | nil => rfl
  | cons b s ih =>
    by_cases hb : b = lineFeed
    · subst hb
      have hcrlf : crlf (lineFeed :: s) = [13] ++ lineFeed :: crlf s := rfl
      rw [hcrlf, lines_line_append [13] _ (by decide), lines_lineFeed, ih]
      rfl
    · have hcrlf : crlf (b :: s) = b :: crlf s := by
        rw [crlf, List.flatMap_cons, if_neg hb]
        rfl
      rw [hcrlf, lines_cons, lines_cons, ih, Lines.cons, Lines.cons, if_neg hb, if_neg hb]
      cases (lines s).ended <;> rfl

def wholeLines (s : Bytes) : Bytes := s.rdropWhile (· ≠ lineFeed)

theorem wholeLines_eq (s : Bytes) :
    wholeLines s = (lines s).ended.flatMap (· ++ [lineFeed]) := by
  let ended := (lines s).ended.flatMap (· ++ [lineFeed])
  have hended : ended.rdropWhile (· ≠ lineFeed) = ended := by
    rw [List.rdropWhile_eq_self_iff]
    intro hne
    simpa using complete_flatMap _ _ (List.getLast?_eq_some_getLast hne)
  have hrest : ∀ b ∈ (lines s).rest.reverse, decide (b ≠ lineFeed) = true := by
    intro b hb
    have hmem := List.mem_reverse.mp hb
    exact decide_eq_true fun heq => (unbroken_lines s).rest (heq ▸ hmem)
  calc wholeLines s
    _ = (ended ++ (lines s).rest).rdropWhile (· ≠ lineFeed) := by
      rw [wholeLines]
      exact congrArg _ (text_lines s).symm
    _ = ended.rdropWhile (· ≠ lineFeed) := by
      rw [List.rdropWhile, List.rdropWhile, List.reverse_append,
        List.dropWhile_append_of_pos hrest]
    _ = ended := hended

theorem lines_wholeLines (s : Bytes) : lines (wholeLines s) = ⟨(lines s).ended, []⟩ := by
  rw [wholeLines_eq, lines_flatMap _ (unbroken_lines s).ended]

theorem ended_lines_append (s t : Bytes) :
    ∃ more, (lines (s ++ t)).ended = (lines s).ended ++ more := by
  have hs : s ++ t = (lines s).ended.flatMap (· ++ [lineFeed]) ++ ((lines s).rest ++ t) := by
    rw [← List.append_assoc]
    exact congrArg (· ++ t) (text_lines s).symm
  rw [hs, lines_append (complete_flatMap _), lines_flatMap _ (unbroken_lines s).ended]
  exact ⟨_, rfl⟩

end HexBench.Bytes
