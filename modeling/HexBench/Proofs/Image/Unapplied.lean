import HexBench.Proofs.Image.Roles
import HexBench.Proofs.Text.Edits

set_option autoImplicit false

namespace HexBench.Image

open Bytes (kept struck marked strike)
open Verdict (Inert)

section Marked

variable {ms : List (Bool × Verdict)}

theorem placed_heard_unmarked (h : ∀ m ∈ ms, m.1 = true → m.2.Inert) (current : UInt64) :
    placed current (heard ((ms.filter fun m => !m.1).map Prod.snd)) =
      placed current (heard (ms.map Prod.snd)) := by
  induction ms generalizing current with
  | nil => rfl
  | cons m ms ih =>
    have hrest := ih fun m' hm' => h m' (List.mem_cons_of_mem m hm')
    obtain ⟨marked, v⟩ := m
    cases marked with
    | true =>
      have hv : v.Inert := h (true, v) List.mem_cons_self rfl
      rw [List.filter_cons_of_neg (by simp), List.map_cons, heard, if_neg (by simp [hv.stops]),
        placed, hv.places, hv.nextBase, List.nil_append]
      exact hrest current
    | false =>
      rw [List.filter_cons_of_pos rfl, List.map_cons, List.map_cons, heard, heard]
      split
      · rfl
      · rw [placed, placed, hrest]

theorem countP_heard_unmarked (h : ∀ m ∈ ms, m.1 = true → m.2.Inert) (p : Verdict → Bool) :
    (heard (ms.map Prod.snd)).countP p =
      (heard ((ms.filter fun m => !m.1).map Prod.snd)).countP p +
        (ms.takeWhile fun m => !m.2.stops).countP fun m => m.1 && p m.2 := by
  induction ms with
  | nil => rfl
  | cons m ms ih =>
    have hrest := ih fun m' hm' => h m' (List.mem_cons_of_mem m hm')
    obtain ⟨marked, v⟩ := m
    cases marked with
    | true =>
      have hv : v.Inert := h (true, v) List.mem_cons_self rfl
      rw [List.filter_cons_of_neg (by simp), List.map_cons, heard, if_neg (by simp [hv.stops]),
        List.takeWhile_cons_of_pos (by simp [hv.stops]), List.countP_cons, List.countP_cons, hrest,
        Nat.add_assoc]
      rfl
    | false =>
      rw [List.filter_cons_of_pos rfl, List.map_cons, List.map_cons, heard, heard]
      cases hstops : v.stops with
      | true => simp [hstops]
      | false =>
        rw [if_neg (by simp), if_neg (by simp), List.takeWhile_cons_of_pos (by simp [hstops]),
          List.countP_cons, List.countP_cons, List.countP_cons, hrest]
        simp only [Bool.false_and, Bool.false_eq_true, if_false]
        omega

theorem load_unmarked {o o' : Options} {text left : Bytes} (h : ∀ m ∈ ms, m.1 = true → m.2.Inert)
    (htext : text.lines.all.map (Verdict.ofLine o) = ms.map Prod.snd)
    (hleft : left.lines.all.map (Verdict.ofLine o') = (ms.filter fun m => !m.1).map Prod.snd)
    (memory : Memory) :
    let whole := load o ⟨text, none⟩ memory
    let without := load o' ⟨left, none⟩ memory
    let reached := ms.takeWhile fun m => !m.2.stops
    whole.memory = without.memory ∧ ∃ s, without.result = .ok s ∧
      whole.result = .ok { s with
        skipped := s.skipped + reached.countP fun m => m.1 && m.2.isIgnored
        malformed := s.malformed + reached.countP fun m => m.1 && m.2.isFault } := by
  intro whole without reached
  obtain ⟨hmemory, hresult⟩ := load_text o text memory
  obtain ⟨hmemory', hresult'⟩ := load_text o' left memory
  have hplaced : applied o text = applied o' left := by
    rw [applied, applied, verdicts, verdicts, htext, hleft, placed_heard_unmarked h]
  refine ⟨?_, _, hresult', hresult.trans (congrArg Except.ok ?_)⟩
  · exact hmemory.trans (hmemory'.trans (by rw [writes, writes, hplaced])).symm
  · rw [hplaced, verdicts, verdicts, htext, hleft]
    simp only [tally, countP_heard_unmarked h, Summary.plus, Summary.ofWords, Nat.add_zero,
      reached]

end Marked

section Strike

variable {gone : Nat → Bytes → Bool}

theorem countP_reached (o : Options) (p : Verdict → Bool) (ls : List Bytes) :
    (((marked gone ls).map fun m => (m.1, Verdict.ofLine o m.2)).takeWhile
        fun m => !m.2.stops).countP (fun m => m.1 && p m.2) =
      (struck gone (ls.takeWhile fun line => !isEnd o line)).countP
        fun line => p (Verdict.ofLine o line) := by
  rw [struck, Bytes.marked_takeWhile, List.takeWhile_map, List.countP_map, List.countP_map,
    List.countP_filter]
  simp only [Function.comp_def, Verdict.stops_ofLine, Bool.and_comm]

/-- Lines that are not applied can be struck out, and the lines that are left can be read under
other options, as long as these make no difference to them. -/
theorem load_strike {o o' : Options} {text : Bytes}
    (hgone : ∀ line ∈ struck gone text.lines.all, isUnapplied o line = true)
    (hkept : ∀ line ∈ kept gone text.lines.all, Verdict.ofLine o' line = Verdict.ofLine o line)
    (memory : Memory) :
    let whole := load o ⟨text, none⟩ memory
    let left := load o' ⟨text.strike gone, none⟩ memory
    let reached := struck gone (text.lines.all.takeWhile fun line => !isEnd o line)
    whole.memory = left.memory ∧ ∃ s, left.result = .ok s ∧
      whole.result = .ok { s with
        skipped := s.skipped + reached.countP (isSkipped o)
        malformed := s.malformed + reached.countP (isMalformed o) } := by
  intro whole left reached
  let ms := (marked gone text.lines.all).map fun m => (m.1, Verdict.ofLine o m.2)
  have hms : ∀ m ∈ ms, m.1 = true → m.2.Inert := by
    intro m hm hmarked
    obtain ⟨line, hline, rfl⟩ := List.mem_map.mp hm
    exact Verdict.inert_ofLine
      (hgone line.2 (List.mem_map.mpr ⟨line, List.mem_filter.mpr ⟨hline, hmarked⟩, rfl⟩))
  have htext : text.lines.all.map (Verdict.ofLine o) = ms.map Prod.snd := by
    rw [← Bytes.map_snd_marked gone text.lines.all, List.map_map, List.map_map]
    rfl
  have hleft : (text.strike gone).lines.all.map (Verdict.ofLine o') =
      (ms.filter fun m => !m.1).map Prod.snd := by
    rw [Bytes.all_lines_strike, List.map_congr_left hkept, kept, List.filter_map, List.map_map,
      List.map_map]
    rfl
  obtain ⟨hmemory, s, hresult, hcounts⟩ := load_unmarked hms htext hleft memory
  refine ⟨hmemory, s, hresult, hcounts.trans ?_⟩
  simp only [ms, countP_reached, Verdict.isIgnored_ofLine, Verdict.isFault_ofLine]
  rfl

end Strike

section Blanks

theorem ofLine_append_blanks (o : Options) (line : Bytes) {blanks : Bytes}
    (h : ∀ b ∈ blanks, Bytes.isBlank b = true) :
    Verdict.ofLine o (line ++ blanks) = Verdict.ofLine o line := by
  have hparse : Record.parse (line ++ blanks) = Record.parse line := by
    rw [Record.parse, Record.parse, Bytes.trimEnd_append_blanks line h]
  cases line with
  | nil =>
    have hstart : blanks.head? ≠ some Record.startCode := by
      intro hhead
      have hblank := h _ (List.mem_of_head? hhead)
      revert hblank
      decide
    rw [List.nil_append, Verdict.ofLine_of_other o hstart]
    rfl
  | cons b line =>
    rw [Verdict.ofLine, Verdict.ofLine, hparse]
    rfl

theorem run_of_verdicts {o : Options} {ls ls' : List Bytes}
    (h : ls'.map (Verdict.ofLine o) = ls.map (Verdict.ofLine o)) (number : Nat) (l : Load) :
    Load.run o number ls' l = Load.run o number ls l := by
  induction ls generalizing ls' number l with
  | nil =>
    rw [List.map_nil, List.map_eq_nil_iff] at h
    rw [h]
  | cons line ls ih =>
    obtain ⟨line', rest, rfl, hline, hrest⟩ := List.map_eq_cons_iff.mp h
    rw [Load.run, Load.run, hline]
    split
    · rfl
    · exact ih hrest _ _

theorem load_of_verdicts {o : Options} {text text' : Bytes}
    (hended : text'.lines.ended.map (Verdict.ofLine o) = text.lines.ended.map (Verdict.ofLine o))
    (hempty : text'.lines.rest.isEmpty = text.lines.rest.isEmpty)
    (hrest : Verdict.ofLine o text'.lines.rest = Verdict.ofLine o text.lines.rest)
    (failure : Option String) (memory : Memory) :
    load o ⟨text', failure⟩ memory = load o ⟨text, failure⟩ memory := by
  have hlines : (Source.mk text' failure).lines.map (Verdict.ofLine o) =
      (Source.mk text failure).lines.map (Verdict.ofLine o) := by
    cases failure with
    | some e => exact hended
    | none =>
      simp only [Source.lines, Bytes.Lines.all, hempty]
      split
      · exact hended
      · rw [List.map_append, List.map_append, hended, List.map_singleton, hrest]
        rfl
  rw [load, load, run_of_verdicts hlines]

theorem map_ofLine_padded (o : Options) {blanks : Nat → Bytes}
    (h : ∀ n, ∀ b ∈ blanks n, Bytes.isBlank b = true) (ls : List Bytes) :
    (Bytes.padded blanks ls).map (Verdict.ofLine o) = ls.map (Verdict.ofLine o) := by
  induction ls generalizing blanks with
  | nil => rfl
  | cons line ls ih =>
    rw [Bytes.padded, List.mapIdx_cons, List.map_cons, List.map_cons,
      ofLine_append_blanks o line (h 1)]
    exact congrArg _ (ih fun n => h (n + 1))

end Blanks

/-- Any lines that are not applied can be struck out. The memory stays the same, and so do the
counts of records and words; those of malformed and of skipped lines lose what was struck out
before the end of the load. Blanks behind any lines change nothing at all, and neither does a
carriage return in front of every line feed. -/
theorem load_unapplied (o : Options) (text : Bytes) (memory : Memory) :
    (∀ gone : Nat → Bytes → Bool,
      (∀ line ∈ struck gone text.lines.all, isUnapplied o line = true) →
      let whole := load o ⟨text, none⟩ memory
      let left := load o ⟨text.strike gone, none⟩ memory
      let reached := struck gone (text.lines.all.takeWhile fun line => !isEnd o line)
      whole.memory = left.memory ∧ ∃ s, left.result = .ok s ∧
        whole.result = .ok { s with
          skipped := s.skipped + reached.countP (isSkipped o)
          malformed := s.malformed + reached.countP (isMalformed o) }) ∧
    (∀ blanks : Nat → Bytes, (∀ number, ∀ b ∈ blanks number, b ∈ [32, 9, 12, 13]) →
      ∀ failure, load o ⟨text.pad blanks, failure⟩ memory = load o ⟨text, failure⟩ memory) ∧
    ∀ failure, load o ⟨text.crlf, failure⟩ memory = load o ⟨text, failure⟩ memory := by
  refine ⟨fun gone hgone => ?_, fun blanks hblanks failure => ?_, fun failure => ?_⟩
  · exact load_strike hgone (fun _ _ => rfl) memory
  · have hblank : ∀ n, ∀ b ∈ blanks n, Bytes.isBlank b = true ∧ b ≠ Bytes.lineFeed := by
      intro n b hb
      have hmem := hblanks n b hb
      simp only [List.mem_cons, List.not_mem_nil, or_false] at hmem
      rcases hmem with rfl | rfl | rfl | rfl <;> decide
    have hunbroken : ∀ n, Bytes.lineFeed ∉ blanks n := fun n hmem => (hblank n _ hmem).2 rfl
    have hlines := Bytes.lines_pad blanks hunbroken text
    refine load_of_verdicts ?_ ?_ ?_ failure memory
    · rw [hlines]
      exact map_ofLine_padded o (fun n b hb => (hblank n b hb).1) _
    · rw [hlines]
      cases text.lines.rest <;> rfl
    · rw [hlines]
      dsimp only
      split
      · rename_i hempty
        rw [List.isEmpty_iff.mp hempty]
      · exact ofLine_append_blanks o _ fun b hb => (hblank _ b hb).1
  · have hlines := Bytes.lines_crlf text
    refine load_of_verdicts ?_ (by rw [hlines]) (by rw [hlines]) failure memory
    rw [hlines, List.map_map]
    have hreturn : ∀ b ∈ ([13] : Bytes), Bytes.isBlank b = true := List.forall_mem_singleton.mpr rfl
    exact List.map_congr_left fun line _ => ofLine_append_blanks o line hreturn

/-- Six of eight lines are not applied, and five of these go, one of them behind the end of the
load. -/
theorem load_unapplied_five_gone :
    let o : Options := ⟨true, true⟩
    let text := Bytes.ofString ("# two words\n:0400000001000000FB\n:0400000001000000FC\n"
      ++ ":0400000300003800C1\n:0100000401FA\n:0400\n:00000001FF\n:0400")
    let gone : Nat → Bytes → Bool := fun number _ => number ∈ [1, 3, 4, 6, 8]
    let blanks : Nat → Bytes := fun number => if number = 8 then [32, 12] else [9, 13]
    (∀ line ∈ struck gone text.lines.all, isUnapplied o line = true) ∧
      (∀ number, ∀ b ∈ blanks number, b ∈ [32, 9, 12, 13]) ∧
      (load o ⟨text.strike gone, none⟩ #[7]).result =
        .ok { records := 1, written := 1, malformed := 1 } ∧
      (load o ⟨text, none⟩ #[7]).result =
        .ok { records := 1, written := 1, skipped := 1, malformed := 3 } ∧
      (load o ⟨text.pad blanks, none⟩ #[7]).memory = #[1] := by
  intro o text gone blanks
  have hgone : ∀ line ∈ struck gone text.lines.all, isUnapplied o line = true := by
    decide +kernel
  have hblanks : ∀ number, ∀ b ∈ blanks number, b ∈ [32, 9, 12, 13] := by
    intro number
    simp only [blanks]
    split <;> simp
  obtain ⟨hstruck, hpadded, _⟩ := load_unapplied o text #[7]
  obtain ⟨_, s, hleft, hwhole⟩ := hstruck gone hgone
  have hs : s = { records := 1, written := 1, malformed := 1 } :=
    Except.ok.inj (hleft.symm.trans (by decide +kernel))
  subst hs
  exact ⟨hgone, hblanks, hleft, hwhole.trans (by decide +kernel),
    (congrArg Outcome.memory (hpadded blanks hblanks none)).trans (by decide +kernel)⟩

end HexBench.Image
