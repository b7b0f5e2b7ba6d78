import HexBench.Proofs.Image.Applied
import HexBench.Proofs.Memory

set_option autoImplicit false

/-!
# What a load leaves

One line does to a load what its verdict says: it may move the base, it may apply a record, and it
counts. A whole run puts the words of the applied records in order and counts all of it.
-/

namespace HexBench.Image

open Memory (putAll_append size_put size_putAll)

namespace Summary

def plus (s t : Summary) : Summary where
  records := s.records + t.records
  written := s.written + t.written
  dropped := s.dropped + t.dropped
  skipped := s.skipped + t.skipped
  malformed := s.malformed + t.malformed

theorem plus_assoc (s t u : Summary) : (s.plus t).plus u = s.plus (t.plus u) := by
  simp only [plus, Nat.add_assoc]

theorem empty_plus (s : Summary) : Summary.plus {} s = s := by
  simp only [plus, Nat.zero_add]

def ofWords (size : Nat) (ws : List (Nat × UInt32)) : Summary where
  written := ws.countP fun w => w.1 < size
  dropped := ws.countP fun w => size ≤ w.1

theorem ofWords_append (size : Nat) (xs ys : List (Nat × UInt32)) :
    ofWords size (xs ++ ys) = (ofWords size xs).plus (ofWords size ys) := by
  simp only [ofWords, plus, List.countP_append, Nat.add_zero]

theorem ofWords_sum (size : Nat) (ws : List (Nat × UInt32)) :
    (ofWords size ws).written + (ofWords size ws).dropped = ws.length := by
  have hsplit := List.length_eq_countP_add_countP (fun w : Nat × UInt32 => decide (w.1 < size))
    (l := ws)
  simp only [decide_eq_true_eq, Nat.not_lt] at hsplit
  exact hsplit.symm

end Summary

namespace Verdict

def isIgnored : Verdict → Bool
  | ignored _ => true
  | _ => false

def isFault : Verdict → Bool
  | malformed _ | checksumMismatch .. | noAddress _ => true
  | _ => false

end Verdict

def tally (size : Nat) (ps : List Placed) (vs : List Verdict) : Summary :=
  Summary.plus
    { records := ps.length, skipped := vs.countP Verdict.isIgnored
      malformed := vs.countP Verdict.isFault }
    (.ofWords size (ps.flatMap Placed.writes))

theorem tally_append (size : Nat) (ps qs : List Placed) (vs us : List Verdict) :
    tally size (ps ++ qs) (vs ++ us) = (tally size ps vs).plus (tally size qs us) := by
  simp only [tally, List.flatMap_append, Summary.ofWords_append, Summary.plus, Summary.mk.injEq,
    List.length_append, List.countP_append]
  omega

namespace Load

theorem store_memory (l : Load) (index : UInt64) (word : UInt32) :
    (l.store index word).memory = l.memory.put (index.toNat, word) := by
  unfold store Memory.put
  split
  · rfl
  · rename_i h
    exact (Array.setIfInBounds_eq_of_size_le (Nat.le_of_not_lt h)).symm

theorem store_size (l : Load) (index : UInt64) (word : UInt32) :
    (l.store index word).memory.size = l.memory.size := by
  rw [store_memory, size_put]

theorem store_summary (l : Load) (index : UInt64) (word : UInt32) :
    (l.store index word).summary =
      l.summary.plus (.ofWords l.memory.size [(index.toNat, word)]) := by
  unfold store
  split
  · rename_i h
    simp [Summary.plus, Summary.ofWords, h]
  · rename_i h
    simp [Summary.plus, Summary.ofWords, Nat.le_of_not_lt h, h]

theorem store_base (l : Load) (index : UInt64) (word : UInt32) :
    (l.store index word).base = l.base := by
  unfold store
  split <;> rfl

theorem store_stopped (l : Load) (index : UInt64) (word : UInt32) :
    (l.store index word).stopped = l.stopped := by
  unfold store
  split <;> rfl

theorem storeWords_memory (l : Load) (address : UInt64) (words : List (Nat × UInt32)) :
    (l.storeWords address words).memory = l.memory.putAll (indexed address words) := by
  induction words generalizing l with
  | nil => rfl
  | cons w words ih =>
    change ((l.store (wordIndex address w.1) w.2).storeWords address words).memory = _
    rw [ih, store_memory]
    rfl

theorem storeWords_summary (l : Load) (address : UInt64) (words : List (Nat × UInt32)) :
    (l.storeWords address words).summary =
      l.summary.plus (.ofWords l.memory.size (indexed address words)) := by
  induction words generalizing l with
  | nil => rfl
  | cons w words ih =>
    change ((l.store (wordIndex address w.1) w.2).storeWords address words).summary = _
    rw [ih, store_summary, store_size, Summary.plus_assoc, ← Summary.ofWords_append]
    rfl

theorem storeWords_base (l : Load) (address : UInt64) (words : List (Nat × UInt32)) :
    (l.storeWords address words).base = l.base := by
  induction words generalizing l with
  | nil => rfl
  | cons w words ih =>
    exact (ih (l.store (wordIndex address w.1) w.2)).trans (store_base l _ _)

theorem storeWords_stopped (l : Load) (address : UInt64) (words : List (Nat × UInt32)) :
    (l.storeWords address words).stopped = l.stopped := by
  induction words generalizing l with
  | nil => rfl
  | cons w words ih =>
    exact (ih (l.store (wordIndex address w.1) w.2)).trans (store_stopped l _ _)

def dropReports (size : Nat) (ws : List (UInt64 × UInt32)) : List Event :=
  (ws.filter fun w => size ≤ w.1.toNat).map fun w => .dropped w.1 w.2 size

theorem dropReports_append (size : Nat) (xs ys : List (UInt64 × UInt32)) :
    dropReports size (xs ++ ys) = dropReports size xs ++ dropReports size ys := by
  simp only [dropReports, List.filter_append, List.map_append]

theorem store_events (l : Load) (index : UInt64) (word : UInt32) :
    (l.store index word).events.toList =
      l.events.toList ++ dropReports l.memory.size [(index, word)] := by
  unfold store dropReports
  split
  · rename_i h
    rw [List.filter_cons_of_neg (by simpa using h)]
    exact (List.append_nil _).symm
  · rename_i h
    rw [List.filter_cons_of_pos (by simpa using h), Array.toList_push]
    rfl

theorem storeWords_events (l : Load) (address : UInt64) (words : List (Nat × UInt32)) :
    (l.storeWords address words).events.toList = l.events.toList ++
      dropReports l.memory.size (words.map fun w => (wordIndex address w.1, w.2)) := by
  induction words generalizing l with
  | nil => exact (List.append_nil _).symm
  | cons w words ih =>
    change ((l.store (wordIndex address w.1) w.2).storeWords address words).events.toList = _
    rw [ih, store_size, store_events, List.append_assoc, ← dropReports_append]
    rfl

theorem apply_base (l : Load) (number : Nat) (v : Verdict) :
    (l.apply number v).base = v.nextBase l.base := by
  cases v with
  | data r => exact storeWords_base l.countRecord _ _
  | _ => rfl

theorem apply_stopped (l : Load) (number : Nat) (v : Verdict) :
    (l.apply number v).stopped = (v.stops || l.stopped) := by
  cases v with
  | data r => exact storeWords_stopped l.countRecord _ _
  | _ => rfl

theorem apply_memory {o : Options} {v : Verdict} (hv : v.Sound o) (l : Load) (hl : IsBase l.base)
    (number : Nat) : (l.apply number v).memory =
      l.memory.putAll ((v.places l.base).flatMap Placed.writes) := by
  cases v with
  | data r =>
    have hfits : (⟨l.base, r⟩ : Placed).Fits := ⟨hl, hv⟩
    change (l.countRecord.storeWords (l.base + r.address.toUInt64) r.words).memory = _
    rw [storeWords_memory, hfits.indexed_words]
    simp only [Verdict.places, List.flatMap_singleton]
    rfl
  | _ => rfl

theorem apply_summary {o : Options} {v : Verdict} (hv : v.Sound o) (l : Load) (hl : IsBase l.base)
    (number : Nat) : (l.apply number v).summary =
      l.summary.plus (tally l.memory.size (v.places l.base) [v]) := by
  cases v with
  | data r =>
    have hfits : (⟨l.base, r⟩ : Placed).Fits := ⟨hl, hv⟩
    change (l.countRecord.storeWords (l.base + r.address.toUInt64) r.words).summary = _
    rw [storeWords_summary, hfits.indexed_words]
    simp only [tally, Verdict.places, List.flatMap_singleton, ← Summary.plus_assoc]
    rfl
  | _ => rfl

theorem run_of_stopped (o : Options) (number : Nat) (lines : List Bytes) {l : Load}
    (h : l.stopped = true) : run o number lines l = l := by
  cases lines with
  | nil => rfl
  | cons line rest => rw [run, if_pos h]

theorem run_eq (o : Options) (lines : List Bytes) (number : Nat) (l : Load)
    (hstopped : l.stopped = false) (hl : IsBase l.base) :
    (run o number lines l).memory =
        l.memory.putAll ((placed l.base (verdicts o lines)).flatMap Placed.writes) ∧
      (run o number lines l).summary =
        l.summary.plus (tally l.memory.size (placed l.base (verdicts o lines))
          (verdicts o lines)) := by
  -- The base stays one that an address record can set, so that all indices are exact.
  induction lines generalizing number l with
  | nil => exact ⟨rfl, rfl⟩
  | cons line rest ih =>
    have hv := Verdict.ofLine_sound o line
    have hmemory := apply_memory hv l hl number
    have hsummary := apply_summary hv l hl number
    have hrun : run o number (line :: rest) l =
        run o (number + 1) rest (l.apply number (.ofLine o line)) := by
      rw [run, hstopped]
      rfl
    rw [hrun, verdicts_cons]
    by_cases hstop : (Verdict.ofLine o line).stops
    · rw [run_of_stopped o _ rest (by rw [apply_stopped, hstop]; rfl), if_pos hstop, placed, placed,
        List.append_nil]
      exact ⟨hmemory, hsummary⟩
    · have hbase := apply_base l number (Verdict.ofLine o line)
      obtain ⟨hm, hs⟩ := ih (number + 1) (l.apply number (.ofLine o line))
        (by rw [apply_stopped, hstopped, Bool.or_false]; simpa using hstop)
        (by rw [hbase]; exact nextBase_isBase hv hl)
      have hsize : (l.apply number (.ofLine o line)).memory.size = l.memory.size := by
        rw [hmemory, size_putAll]
      rw [hbase] at hm hs
      rw [if_neg hstop, placed, ← List.singleton_append, tally_append, List.flatMap_append,
        putAll_append, hm, hs, hsize, hmemory, hsummary, Summary.plus_assoc]
      exact ⟨rfl, rfl⟩

end Load

/-- A load of a text always comes to its end, and the words of the records that it applies are put
into the memory in order. -/
theorem load_text (o : Options) (text : Bytes) (memory : Memory) :
    (load o ⟨text, none⟩ memory).memory = memory.putAll (writes o text) ∧
      (load o ⟨text, none⟩ memory).result =
        .ok (tally memory.size (applied o text) (verdicts o text.lines.all)) := by
  obtain ⟨hmemory, hsummary⟩ := Load.run_eq o text.lines.all 1 { memory } rfl isBase_zero
  exact ⟨hmemory, congrArg Except.ok (hsummary.trans (Summary.empty_plus _))⟩

end HexBench.Image
