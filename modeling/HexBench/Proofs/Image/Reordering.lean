import HexBench.Proofs.Image.Base
import HexBench.Proofs.Order
import Mathlib.Data.List.Rotate

set_option autoImplicit false

namespace HexBench

/-- The indices of the words that a record writes: one for every fourth byte of its length, with
the lowest two bits of the address left out. -/
def Record.indices (r : Record) : List Nat :=
  ((List.range r.length.toNat).filter fun i => 4 * i < r.length.toNat).map fun i =>
    (r.address.toNat + 4 * i) / 4

theorem Record.mem_indices {r : Record} {index : Nat} :
    index ∈ r.indices ↔ ∃ i, 4 * i < r.length.toNat ∧ (r.address.toNat + 4 * i) / 4 = index := by
  rw [indices, List.mem_map]
  apply exists_congr
  intro i
  rw [List.mem_filter, List.mem_range, decide_eq_true_iff]
  exact and_congr_left fun _ => and_iff_right_of_imp fun h => by omega

namespace Memory

variable {α : Type}

theorem lastWord?_flatMap_filter (f : α → List (Nat × UInt32)) (i : Nat) (xs : List α) :
    lastWord? (xs.flatMap f) i =
      lastWord? ((xs.filter fun x => i ∈ (f x).map Prod.fst).flatMap f) i := by
  induction xs with
  | nil => rfl
  | cons x xs ih =>
    rw [List.flatMap_cons, lastWord?_append, ih]
    by_cases hx : i ∈ (f x).map Prod.fst
    · rw [List.filter_cons_of_pos (by simpa using hx), List.flatMap_cons, lastWord?_append]
    · rw [List.filter_cons_of_neg (by simpa using hx), (lastWord?_eq_none_iff _ i).mpr hx,
        Option.or_none]

theorem putAll_flatMap_perm (m : Memory) {n : Nat} {order : List (Fin n)}
    (hperm : order.Perm (List.finRange n)) (f : Fin n → List (Nat × UInt32))
    (hkeeps : order.Pairwise fun j k =>
      (∃ i ∈ (f j).map Prod.fst, i ∈ (f k).map Prod.fst) → j < k) :
    m.putAll (order.flatMap f) = m.putAll ((List.finRange n).flatMap f) := by
  apply Array.ext_getElem?
  intro i
  let writesHere (j : Fin n) : Bool := i ∈ (f j).map Prod.fst
  -- Groups that write at one index share it, so the order among them is the old one.
  have hsame : order.filter writesHere = (List.finRange n).filter writesHere := by
    refine filter_order hperm writesHere (hkeeps.imp fun {j k} hshared hj hk => ?_)
    exact hshared ⟨i, of_decide_eq_true hj, of_decide_eq_true hk⟩
  rw [getElem?_putAll, getElem?_putAll, lastWord?_flatMap_filter f i order,
    lastWord?_flatMap_filter f i (List.finRange n)]
  exact congrArg (fun js => m[i]?.map fun old => (lastWord? (js.flatMap f) i).getD old) hsame

end Memory

namespace Image

open Bytes (lineFeed)
open Memory (putAll_flatMap_perm)

theorem tally_perm (size : Nat) {ps qs : List Placed} {vs us : List Verdict} (hps : ps.Perm qs)
    (hvs : vs.Perm us) : tally size ps vs = tally size qs us := by
  have hwords := hps.flatMap_right Placed.writes
  simp only [tally, Summary.ofWords, hps.length_eq, hvs.countP_eq, hwords.countP_eq]

def indices (o : Options) (line : Bytes) : List Nat :=
  match Record.parse line with
  | .ok r => if o.accepts r ∧ r.kind = .data then r.indices else []
  | .error _ => []

/-- Both lines hold records that are applied, and these write some word in common. -/
def Meets (o : Options) (line other : Bytes) : Prop :=
  ∃ index ∈ indices o line, index ∈ indices o other

instance (o : Options) (line other : Bytes) : Decidable (Meets o line other) :=
  inferInstanceAs (Decidable (∃ index ∈ indices o line, index ∈ indices o other))

def lineWrites (o : Options) (line : Bytes) : List (Nat × UInt32) :=
  ((Verdict.ofLine o line).places 0).flatMap Placed.writes

theorem Placed.mem_writes_indices {line : Bytes} {r : Record} (h : Record.parse line = .ok r)
    (index : Nat) : index ∈ (Placed.writes ⟨0, r⟩).map Prod.fst ↔ index ∈ r.indices := by
  have hlength := Record.payload_length_of_parse h
  have haddress : Placed.address ⟨0, r⟩ = r.address.toNat := Nat.zero_add _
  rw [Placed.writes_indices, Record.mem_indices, haddress, hlength, List.mem_range'_1, wordCount]
  constructor
  · intro hindex
    exact ⟨index - r.address.toNat / 4, by omega, by omega⟩
  · rintro ⟨i, hi, rfl⟩
    omega

section Plain

variable {o : Options} (h : o.extendedRecords = false)
include h

theorem places_of_parse {line : Bytes} {r : Record} (hparse : Record.parse line = .ok r)
    (current : UInt64) : (Verdict.ofLine o line).places current =
      if o.accepts r ∧ r.kind = .data then [⟨current, r⟩] else [] := by
  rw [Verdict.ofLine_of_parse o hparse, Verdict.ofRecord_eq, Verdict.ofKind, h]
  cases o.accepts r with
  | false => simp [Verdict.places]
  | true => cases r.kind <;> rfl

theorem mem_lineWrites_indices (line : Bytes) (index : Nat) :
    index ∈ (lineWrites o line).map Prod.fst ↔ index ∈ indices o line := by
  rw [lineWrites, indices]
  cases hparse : Record.parse line with
  | error e =>
    have hnone : (Verdict.ofLine o line).places 0 = [] := by
      rw [Verdict.ofLine, hparse]
      split <;> rfl
    rw [hnone]
    rfl
  | ok r =>
    rw [places_of_parse h hparse]
    dsimp only
    split
    · rw [List.flatMap_singleton, Placed.mem_writes_indices hparse]
    · rfl

theorem verdicts_of_plain (ls : List Bytes) : verdicts o ls = ls.map (Verdict.ofLine o) := by
  induction ls with
  | nil => rfl
  | cons line ls ih =>
    rw [verdicts_cons, Verdict.stops_ofLine, isEnd_of_plain h, ih]
    rfl

theorem applied_of_plain (text : Bytes) :
    applied o text = text.lines.all.flatMap fun line => (Verdict.ofLine o line).places 0 := by
  have hstill := base?_of_mem_verdicts fun line (_ : line ∈ text.lines.all) =>
    setsBase?_of_plain h line
  rw [applied, placed_eq_flatMap hstill, verdicts_of_plain h, List.flatMap_map]

theorem writes_of_plain (text : Bytes) : writes o text = text.lines.all.flatMap (lineWrites o) := by
  rw [writes, applied_of_plain h, List.flatMap_assoc]
  rfl

end Plain

/-- The lines of a text without extended records can be put in any order that keeps the order of
every two lines that meet: the memory and the counts stay the same. -/
theorem load_reordered (verify : Bool) (text : Bytes) (memory : Memory)
    {order : List (Fin text.lines.all.length)} (hperm : order.Perm (List.finRange _))
    (hkeeps : order.Pairwise fun i j =>
      Meets ⟨verify, false⟩ (text.lines.all.get i) (text.lines.all.get j) → i < j) :
    let o : Options := ⟨verify, false⟩
    let reordered := (order.map text.lines.all.get).flatMap (· ++ [lineFeed])
    let old := load o ⟨text, none⟩ memory
    let new := load o ⟨reordered, none⟩ memory
    new.memory = old.memory ∧ ∃ s, old.result = .ok s ∧ new.result = .ok s := by
  intro o reordered old new
  have hplain : o.extendedRecords = false := rfl
  let ls := text.lines.all
  have hold : (List.finRange ls.length).map ls.get = ls := List.map_get_finRange ls
  have hlines : (Bytes.lines reordered).all = order.map ls.get := by
    apply Bytes.all_lines_flatMap
    intro line hline
    obtain ⟨i, _, rfl⟩ := List.mem_map.mp hline
    exact Bytes.lineFeed_notMem_lines text _ (List.get_mem ls i)
  have hsame : (Bytes.lines reordered).all.Perm ls := by
    rw [hlines]
    exact (hperm.map ls.get).trans (.of_eq hold)
  obtain ⟨hmemory, hresult⟩ : old.memory = _ ∧ old.result = _ := load_text o text memory
  obtain ⟨hmemory', hresult'⟩ : new.memory = _ ∧ new.result = _ := load_text o reordered memory
  refine ⟨?_, _, hresult, ?_⟩
  · have hshared : order.Pairwise fun i j =>
        (∃ index ∈ (lineWrites o (ls.get i)).map Prod.fst,
          index ∈ (lineWrites o (ls.get j)).map Prod.fst) → i < j := by
      refine hkeeps.imp fun hmeets => ?_
      rintro ⟨index, hi, hj⟩
      exact hmeets ⟨index, (mem_lineWrites_indices hplain _ index).mp hi,
        (mem_lineWrites_indices hplain _ index).mp hj⟩
    have hmoved := putAll_flatMap_perm memory hperm (fun i => lineWrites o (ls.get i)) hshared
    have hwrites : writes o text = ls.flatMap (lineWrites o) := writes_of_plain hplain text
    rw [hmemory', hmemory, writes_of_plain hplain reordered, hwrites, hlines, List.flatMap_map,
      hmoved, ← List.flatMap_map, hold]
  · rw [hresult', applied_of_plain hplain, applied_of_plain hplain, verdicts_of_plain hplain,
      verdicts_of_plain hplain]
    exact congrArg Except.ok (tally_perm _ (hsame.flatMap_right _) (hsame.map _))

/-- The last two lines go to the front. The first record and the third line meet in word 0, though
their addresses differ. -/
theorem load_reordered_rotated :
    let o : Options := ⟨true, false⟩
    let text := Bytes.ofString
      ":0400000001000000FB\n; remark\n:020003000908EA\n:0400040005000000F3\n:04000800"
    let ls := text.lines.all
    let order := (List.finRange ls.length).rotate 3
    let reordered := (order.map ls.get).flatMap (· ++ [lineFeed])
    let new := load o ⟨reordered, none⟩ #[7, 7, 7]
    order.Perm (List.finRange _) ∧
      (order.Pairwise fun i j => Meets o (ls.get i) (ls.get j) → i < j) ∧
      (∃ i j, i ≠ j ∧ Meets o (ls.get i) (ls.get j)) ∧
      reordered = Bytes.ofString
        ":0400040005000000F3\n:04000800\n:0400000001000000FB\n; remark\n:020003000908EA\n" ∧
      new.memory = #[0x0809, 5, 7] ∧
      new.result = .ok { records := 3, written := 3, malformed := 1 } := by
  intro o text ls order reordered new
  have hperm : order.Perm (List.finRange ls.length) := List.rotate_perm _ 3
  have hkeeps : order.Pairwise fun i j => Meets o (ls.get i) (ls.get j) → i < j := by
    decide +kernel
  have hmeets : ∃ i j, i ≠ j ∧ Meets o (ls.get i) (ls.get j) := by decide +kernel
  obtain ⟨hmemory, s, hold, hnew⟩ := load_reordered true text #[7, 7, 7] hperm hkeeps
  have hs : s = { records := 3, written := 3, malformed := 1 } :=
    Except.ok.inj (hold.symm.trans (by decide +kernel))
  subst hs
  exact ⟨hperm, hkeeps, hmeets, by decide +kernel, hmemory.trans (by decide +kernel), hnew⟩

end Image
end HexBench
