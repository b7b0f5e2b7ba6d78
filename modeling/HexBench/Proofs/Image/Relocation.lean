import HexBench.Proofs.Image.Base
import HexBench.Proofs.Image.Filters

set_option autoImplicit false

namespace HexBench

namespace Memory

def moved (n : Nat) (ws : List (Nat × UInt32)) : List (Nat × UInt32) :=
  ws.map fun w => (n + w.1, w.2)

theorem lastWord?_moved (n : Nat) (ws : List (Nat × UInt32)) (i : Nat) :
    lastWord? (moved n ws) i = if n ≤ i then lastWord? ws (i - n) else none := by
  induction ws with
  | nil =>
    split <;> rfl
  | cons w ws ih =>
    change lastWord? ((n + w.1, w.2) :: moved n ws) i = _
    rw [lastWord?_cons, lastWord?_cons, ih]
    by_cases hi : n ≤ i
    · have hsame : n + w.1 = i ↔ w.1 = i - n := by omega
      simp only [if_pos hi, hsame]
    · rw [if_neg hi, if_neg (by omega), if_neg hi]
      rfl

theorem putAll_moved (m : Memory) (n : Nat) (ws : List (Nat × UInt32)) :
    m.putAll (moved n ws) = m.extract 0 n ++ putAll (m.extract n m.size) ws := by
  apply Array.ext_getElem?
  intro i
  rw [getElem?_putAll, lastWord?_moved, Array.getElem?_append, Array.size_extract]
  by_cases hi : i < m.size
  · by_cases hn : n ≤ i
    · have hsize : min n m.size = n := by omega
      rw [if_pos hn, hsize, Nat.sub_zero, if_neg (by omega), getElem?_putAll,
        Array.getElem?_extract, if_pos (by omega), Nat.add_sub_cancel' hn]
    · rw [if_neg hn, if_pos (by omega), Array.getElem?_extract, if_pos (by omega), Nat.zero_add]
      simp
  · have hnone : m[i]? = none := Array.getElem?_eq_none (by omega)
    rw [hnone, Option.map_none, if_neg (by omega), Array.getElem?_eq_none]
    rw [size_putAll, Array.size_extract]
    omega

end Memory

namespace Image

open Bytes (lineFeed)
open Memory (moved putAll_moved)

theorem Summary.ofWords_moved (size n : Nat) (ws : List (Nat × UInt32)) :
    ofWords size (moved n ws) = ofWords (size - n) ws := by
  have hinside (w : Nat × UInt32) : n + w.1 < size ↔ w.1 < size - n := by omega
  have houtside (w : Nat × UInt32) : size ≤ n + w.1 ↔ size - n ≤ w.1 := by omega
  simp only [ofWords, moved, List.countP_map, Function.comp_def, hinside, houtside]

namespace Verdict

theorem length_places (v : Verdict) (base : UInt64) :
    (v.places base).length = (v.places 0).length := by
  cases v <;> rfl

theorem writes_places (v : Verdict) {base : UInt64} (hbase : base.toNat % 4 = 0) :
    (v.places base).flatMap Placed.writes =
      moved (base.toNat / 4) ((v.places 0).flatMap Placed.writes) := by
  cases v with
  | data r =>
    have haddress : Placed.address ⟨0, r⟩ = r.address.toNat := Nat.zero_add _
    have hmoved (i : Nat) : (base.toNat + r.address.toNat) / 4 + i =
        base.toNat / 4 + (r.address.toNat / 4 + i) := by omega
    simp only [places, List.flatMap_singleton, Placed.writes, moved, List.map_map, haddress]
    exact List.map_congr_left fun i _ => congrArg (·, _) (hmoved i)
  | _ => rfl

end Verdict

section Still

variable {vs : List Verdict} (h : ∀ v ∈ vs, v.base? = none)
include h

theorem length_placed (base : UInt64) : (placed base vs).length = (placed 0 vs).length := by
  simp only [placed_eq_flatMap h, List.length_flatMap, Verdict.length_places _ base]

theorem writes_placed {base : UInt64} (hbase : base.toNat % 4 = 0) :
    (placed base vs).flatMap Placed.writes =
      moved (base.toNat / 4) ((placed 0 vs).flatMap Placed.writes) := by
  rw [placed_eq_flatMap h, placed_eq_flatMap h, List.flatMap_assoc, List.flatMap_assoc, moved,
    List.map_flatMap]
  exact congrArg (vs.flatMap ·) (funext fun v => v.writes_places hbase)

theorem tally_placed (size : Nat) {base : UInt64} (hbase : base.toNat % 4 = 0) :
    tally size (placed base vs) vs = tally (size - base.toNat / 4) (placed 0 vs) vs := by
  rw [tally, tally, length_placed h, writes_placed h hbase, Summary.ofWords_moved]

end Still

theorem setsBase?_of_not_extended {o : Options} {line : Bytes} (h : isExtended o line = false) :
    setsBase? o line = none := by
  rw [setsBase?]
  cases hparse : Record.parse line with
  | error e => rfl
  | ok r =>
    have hplain : o.accepts r = true → r.kind.isExtended = false := by
      simpa [isExtended, Record.readsAs, hparse] using h
    dsimp only
    split
    · rename_i hheeded
      have hkind := hplain (Bool.and_eq_true_iff.mp hheeded).2
      rw [Record.base?]
      cases hcase : r.kind with
      | extendedSegmentAddress => rw [hcase] at hkind; cases hkind
      | extendedLinearAddress => rw [hcase] at hkind; cases hkind
      | _ => rfl
    · rfl

section Honoured

variable {o : Options}

theorem ofLine_of_setsBase? {line : Bytes} (h : (setsBase? o line).isSome) :
    ∃ address, Verdict.ofLine o line = .base address := by
  rw [← Verdict.base?_ofLine] at h
  cases hverdict : Verdict.ofLine o line with
  | base address => exact ⟨address, rfl⟩
  | _ => rw [hverdict] at h; cases h

variable {ls : List Bytes} (h : ∀ line ∈ ls, (setsBase? o line).isSome)
include h

theorem any_isEnd_of_setsBase? : ls.any (isEnd o) = false := by
  rw [List.any_eq_false]
  intro line hline
  obtain ⟨address, hverdict⟩ := ofLine_of_setsBase? (h line hline)
  rw [← Verdict.stops_ofLine, hverdict]
  exact Bool.false_ne_true

theorem Load.run_of_setsBase? (number : Nat) (l : Load) :
    (run o number ls l).memory = l.memory ∧ (run o number ls l).summary = l.summary := by
  induction ls generalizing number l with
  | nil => exact ⟨rfl, rfl⟩
  | cons line ls ih =>
    obtain ⟨address, hverdict⟩ := ofLine_of_setsBase? (h line List.mem_cons_self)
    rw [run, hverdict]
    split
    · exact ⟨rfl, rfl⟩
    · exact ih (fun other hother => h other (List.mem_cons_of_mem line hother)) _ _

end Honoured

/-- Behind a line that sets the base, and any number of such lines before it, a text does to the
memory from the base on what it does to that part of the memory alone, and counts the same. The
words in front of the base stay. The text has no address record and no end-of-file record itself,
but for those whose checksum fails. -/
theorem load_relocated {o : Options} {others : List Bytes} {line : Bytes} {base : Nat}
    (hunbroken : ∀ l ∈ others ++ [line], lineFeed ∉ l)
    (hothers : ∀ l ∈ others, (setsBase? o l).isSome) (hline : setsBase? o line = some base)
    {text : Bytes} (htext : ∀ l ∈ text.lines.all, isExtended o l = false) (memory : Memory) :
    let front := (others ++ [line]).flatMap (· ++ [lineFeed])
    let whole := load o ⟨front ++ text, none⟩ memory
    let alone := load o ⟨text, none⟩ (memory.extract (base / 4) memory.size)
    whole.memory = memory.extract 0 (base / 4) ++ alone.memory ∧
      ∃ s, alone.result = .ok s ∧ whole.result = .ok s := by
  intro front whole alone
  let l := Load.run o 1 (Bytes.lines front).all { memory }
  have hlines : (Bytes.lines front).all = others ++ [line] := Bytes.all_lines_flatMap _ hunbroken
  have hset : ∀ l ∈ (Bytes.lines front).all, (setsBase? o l).isSome := by
    rw [hlines]
    intro l hl
    rcases List.mem_append.mp hl with hl | hl
    · exact hothers l hl
    · rw [List.mem_singleton.mp hl, hline]
      rfl
  have hgoes := any_isEnd_of_setsBase? hset
  have hlast : (Bytes.lines front).all.reverse.findSome? (setsBase? o) = some base := by
    rw [hlines, List.reverse_append, List.reverse_singleton, List.singleton_append,
      List.findSome?_cons, hline]
  have hbase : l.base.toNat = base := by
    rw [Load.base_run hgoes 1 rfl, hlast]
    rfl
  have hmod : l.base.toNat % 4 = 0 := (Load.isBase_run o _ 1 isBase_zero).mod_four
  have hstill := base?_of_mem_verdicts fun l hl => setsBase?_of_not_extended (htext l hl)
  obtain ⟨hkept, hcounts⟩ : l.memory = memory ∧ l.summary = {} :=
    Load.run_of_setsBase? hset 1 { memory }
  obtain ⟨hmemory, hresult⟩ : whole.memory = l.memory.putAll _ ∧ whole.result = _ :=
    load_behind (Bytes.complete_flatMap _) hgoes text memory
  obtain ⟨hmemory', hresult'⟩ := load_text o text (memory.extract (base / 4) memory.size)
  have hsize : (memory.extract (base / 4) memory.size).size = memory.size - base / 4 := by
    rw [Array.size_extract, Nat.min_self]
  refine ⟨?_, _, hresult', ?_⟩
  · rw [hmemory, hkept, writes_placed hstill hmod, hbase, putAll_moved]
    exact congrArg _ hmemory'.symm
  · rw [hresult, hkept, hcounts, Summary.empty_plus, tally_placed hstill _ hmod, hbase, hsize]
    rfl

/-- Only the second of two bases counts. The first record starts inside a word, and the second one
lies behind the memory. -/
theorem load_relocated_twice :
    let o : Options := ⟨true, true⟩
    let others := [Bytes.ofString ":020000040001F9\r"]
    let line := Bytes.ofString ":020000020001FB"
    let text := Bytes.ofString ":0400060001020304EC\n:0400\n:0400080005000000EF"
    let front := (others ++ [line]).flatMap (· ++ [lineFeed])
    let whole := load o ⟨front ++ text, none⟩ #[9, 9, 9, 9, 9, 9]
    (∀ l ∈ others ++ [line], lineFeed ∉ l) ∧ (∀ l ∈ others, (setsBase? o l).isSome) ∧
      setsBase? o line = some 16 ∧ (∀ l ∈ text.lines.all, isExtended o l = false) ∧
      whole.memory = #[9, 9, 9, 9, 9, 0x04030201] ∧
      whole.result = .ok { records := 2, written := 1, dropped := 1, malformed := 1 } := by
  intro o others line text front whole
  have hunbroken : ∀ l ∈ others ++ [line], lineFeed ∉ l := by decide +kernel
  have hothers : ∀ l ∈ others, (setsBase? o l).isSome := by decide +kernel
  have hline : setsBase? o line = some 16 := by decide +kernel
  have htext : ∀ l ∈ text.lines.all, isExtended o l = false := by decide +kernel
  obtain ⟨hmemory, s, halone, hwhole⟩ :=
    load_relocated hunbroken hothers hline htext #[9, 9, 9, 9, 9, 9]
  have hs : s = { records := 2, written := 1, dropped := 1, malformed := 1 } :=
    Except.ok.inj (halone.symm.trans (by decide +kernel))
  subst hs
  exact ⟨hunbroken, hothers, hline, htext, hmemory.trans (by decide +kernel), hwhole⟩

end Image
end HexBench
