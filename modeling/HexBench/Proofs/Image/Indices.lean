import HexBench.Proofs.Image.Base

set_option autoImplicit false

namespace HexBench.Image

open Memory (putAll_append putAll_inside size_putAll getElem?_putAll lastWord?_eq_none_iff)

/-- A word that is tried against the memory, with the numbers that its index comes from. -/
structure Attempt where
  base : UInt64
  address : UInt16
  offset : Nat
  word : UInt32
  deriving DecidableEq

namespace Attempt

def index (a : Attempt) : UInt64 := Load.wordIndex (a.base + a.address.toUInt64) a.offset

def exactIndex (a : Attempt) : Nat := (a.base.toNat + a.address.toNat + a.offset) / 4

def write (a : Attempt) : Nat × UInt32 := (a.exactIndex, a.word)

def tried (a : Attempt) : UInt64 × UInt32 := (a.index, a.word)

/-- No sum runs over on the way to the index, and the index stays what it is in the native size and
in 32 bits. -/
structure Exact (a : Attempt) : Prop where
  offset : a.offset.toUInt64.toNat = a.offset
  start : (a.base + a.address.toUInt64).toNat = a.base.toNat + a.address.toNat
  sum : (a.base + a.address.toUInt64 + a.offset.toUInt64).toNat =
    a.base.toNat + a.address.toNat + a.offset
  index : a.index.toNat = a.exactIndex
  native : a.index.toUSize.toNat = a.exactIndex
  narrow : a.index.toUInt32.toNat = a.exactIndex
  highest : a.exactIndex ≤ 2 ^ 30 + 62

theorem exact_of_offset_le {a : Attempt} (hbase : IsBase a.base) (hoffset : a.offset ≤ 252) :
    a.Exact := by
  have hindex : a.index.toNat = a.exactIndex := hbase.wordIndex_toNat a.address (by omega)
  have hhighest : a.exactIndex ≤ 2 ^ 30 + 62 := by
    have hle := hbase.le
    have haddress := a.address.toNat_lt
    unfold exactIndex
    omega
  exact {
    offset := by
      rw [Nat.toUInt64_eq, UInt64.toNat_ofNat', Nat.mod_eq_of_lt (by omega)]
    start := hbase.add_toNat a.address
    sum := hbase.sum_toNat a.address (by omega)
    index := hindex
    native := (USize.toNat_ofNat_of_lt_32 (by omega)).trans hindex
    narrow := by
      rw [UInt64.toNat_toUInt32, Nat.mod_eq_of_lt (by omega), hindex]
    highest := hhighest }

end Attempt

theorem offset_le_of_mem_words {r : Record} (hr : r.payload.length < 256) {w : Nat × UInt32}
    (hw : w ∈ r.words) : w.1 ≤ 252 := by
  rw [Record.words, wordsFrom_eq] at hw
  obtain ⟨i, hi, rfl⟩ := List.mem_map.mp hw
  rw [List.mem_range, wordCount] at hi
  omega

namespace Verdict

def attempts (current : UInt64) : Verdict → List Attempt
  | data r => r.words.map fun w => ⟨current, r.address, w.1, w.2⟩
  | _ => []

theorem attempts_exact {o : Options} {v : Verdict} (hv : v.Sound o) {current : UInt64}
    (h : IsBase current) : ∀ a ∈ v.attempts current, a.Exact := by
  cases v with
  | data r =>
    intro a ha
    obtain ⟨w, hw, rfl⟩ := List.mem_map.mp ha
    exact Attempt.exact_of_offset_le h (offset_le_of_mem_words hv hw)
  | _ => exact List.forall_mem_nil _

end Verdict

def Event.dropped? : Event → Option (UInt64 × UInt32)
  | dropped index word _ => some (index, word)
  | _ => none

namespace Load

def attempts (o : Options) : Nat → List Bytes → Load → List Attempt
  | _, [], _ => []
  | number, line :: rest, l =>
    if l.stopped then []
    else
      (Verdict.ofLine o line).attempts l.base ++
        attempts o (number + 1) rest (l.apply number (.ofLine o line))

theorem attempts_exact (o : Options) (number : Nat) (lines : List Bytes) {l : Load}
    (hl : IsBase l.base) : ∀ a ∈ attempts o number lines l, a.Exact := by
  -- Each line leaves a base that an address record can set, which bounds the sums of the next one.
  induction lines generalizing number l with
  | nil => exact List.forall_mem_nil _
  | cons line rest ih =>
    have hv := Verdict.ofLine_sound o line
    rw [attempts]
    split
    · exact List.forall_mem_nil _
    · intro a ha
      rcases List.mem_append.mp ha with ha | ha
      · exact Verdict.attempts_exact hv hl a ha
      · refine ih (number + 1) ?_ a ha
        rw [apply_base]
        exact nextBase_isBase hv hl

def droppedWords (l : Load) : List (UInt64 × UInt32) := l.events.toList.filterMap Event.dropped?

theorem filterMap_dropReports (size : Nat) (ws : List (UInt64 × UInt32)) :
    (dropReports size ws).filterMap Event.dropped? = ws.filter fun w => size ≤ w.1.toNat := by
  rw [dropReports, List.filterMap_map]
  exact List.filterMap_some

theorem apply_attempts_memory (l : Load) (number : Nat) (v : Verdict) :
    (l.apply number v).memory =
      l.memory.putAll ((v.attempts l.base).map fun a => (a.index.toNat, a.word)) := by
  cases v with
  | data r =>
    change (l.countRecord.storeWords (l.base + r.address.toUInt64) r.words).memory = _
    rw [storeWords_memory, Verdict.attempts, List.map_map]
    rfl
  | _ => rfl

theorem apply_attempts_dropped (l : Load) (number : Nat) (v : Verdict) :
    (l.apply number v).droppedWords = l.droppedWords ++
      ((v.attempts l.base).map Attempt.tried).filter fun w => l.memory.size ≤ w.1.toNat := by
  have hnote (e : Event) (he : e.dropped? = none) :
      (l.events.push e).toList.filterMap Event.dropped? = l.droppedWords ++ [] := by
    rw [Array.toList_push, List.filterMap_append, List.filterMap_cons_none he]
    rfl
  cases v with
  | comment => exact (List.append_nil _).symm
  | data r =>
    change (l.countRecord.storeWords (l.base + r.address.toUInt64) r.words).droppedWords = _
    rw [droppedWords, storeWords_events, List.filterMap_append, filterMap_dropReports,
      Verdict.attempts, List.map_map]
    rfl
  | _ => exact hnote _ rfl

theorem run_attempts (o : Options) (lines : List Bytes) (number : Nat) (l : Load) :
    (run o number lines l).memory =
        l.memory.putAll ((attempts o number lines l).map fun a => (a.index.toNat, a.word)) ∧
      (run o number lines l).droppedWords = l.droppedWords ++
        ((attempts o number lines l).map Attempt.tried).filter
          fun w => l.memory.size ≤ w.1.toNat := by
  induction lines generalizing number l with
  | nil => exact ⟨rfl, (List.append_nil _).symm⟩
  | cons line rest ih =>
    rw [run, attempts]
    split
    · exact ⟨rfl, (List.append_nil _).symm⟩
    · have hmemory := apply_attempts_memory l number (.ofLine o line)
      have hdropped := apply_attempts_dropped l number (.ofLine o line)
      have hsize : (l.apply number (.ofLine o line)).memory.size = l.memory.size := by
        rw [hmemory, size_putAll]
      obtain ⟨hm, hd⟩ := ih (number + 1) (l.apply number (.ofLine o line))
      rw [hsize] at hd
      rw [hm, hd, hmemory, hdropped, ← putAll_append, ← List.map_append, List.append_assoc,
        ← List.filter_append, ← List.map_append]
      exact ⟨rfl, rfl⟩

end Load

/-- Before each line of a load the base is a 16-bit number shifted by 4 or by 16. Each word is tried
at the exact index of its address, and no sum or conversion on the way loses a bit. The memory and
the log hold what the words that were tried leave there: those with an index outside the memory are
dropped and change nothing, and no word of the memory changes but by one with its own index. -/
theorem load_exact_indices (o : Options) (source : Source) (memory : Memory) :
    let attempts := Load.attempts o 1 source.lines { memory }
    let loaded := load o source memory
    (∀ k, ∃ v < 2 ^ 16,
      let base := (Load.run o 1 (source.lines.take k) { memory }).base.toNat
      base = v <<< 4 ∨ base = v <<< 16) ∧
    (∀ a ∈ attempts, a.Exact) ∧
    loaded.memory = memory.putAll (attempts.map fun a => (a.index.toNat, a.word)) ∧
    loaded.memory = memory.putAll
      ((attempts.filter fun a => a.exactIndex < memory.size).map Attempt.write) ∧
    loaded.events.toList.filterMap Event.dropped? =
      (attempts.filter fun a => memory.size ≤ a.exactIndex).map Attempt.tried ∧
    ∀ i, (∀ a ∈ attempts, a.exactIndex ≠ i) → loaded.memory[i]? = memory[i]? := by
  intro attempts loaded
  have hexact : ∀ a ∈ attempts, a.Exact := Load.attempts_exact o 1 source.lines isBase_zero
  obtain ⟨hmemory, hdropped⟩ := Load.run_attempts o source.lines 1 { memory }
  have hwrites : attempts.map (fun a => (a.index.toNat, a.word)) = attempts.map Attempt.write :=
    List.map_congr_left fun a ha => by rw [Attempt.write, (hexact a ha).index]
  have hloaded : loaded.memory = memory.putAll (attempts.map Attempt.write) := by
    rw [← hwrites]
    exact hmemory
  refine ⟨fun k => ?_, hexact, hmemory, ?_, ?_, fun i hi => ?_⟩
  · obtain ⟨v, hv, hbase⟩ : IsBase (Load.run o 1 (source.lines.take k) { memory }).base :=
      Load.isBase_run o _ 1 isBase_zero
    refine ⟨v, hv, ?_⟩
    simp only [Nat.shiftLeft_eq]
    omega
  · rw [hloaded, ← putAll_inside, List.filter_map]
    rfl
  · have hreported : loaded.events.toList.filterMap Event.dropped? =
        (attempts.map Attempt.tried).filter fun w => memory.size ≤ w.1.toNat := hdropped
    rw [hreported, List.filter_map]
    refine congrArg _ (List.filter_congr fun a ha => ?_)
    rw [Function.comp_apply, Attempt.tried, (hexact a ha).index]
  · have hnone : i ∉ (attempts.map Attempt.write).map Prod.fst := by
      rw [List.map_map, List.mem_map]
      rintro ⟨a, ha, rfl⟩
      exact hi a ha rfl
    rw [hloaded, getElem?_putAll, (lastWord?_eq_none_iff _ i).mpr hnone]
    simp

/-- The longest record at the highest address, counted from the highest base. In 32 bits the address
of its second word would be 3. -/
theorem load_exact_indices_highest :
    let text := Bytes.ofString ":02000004FFFFFC\n:FFFFFF00" ++ List.replicate 510 48 ++
      Bytes.ofString "03\n"
    let attempts := Load.attempts ⟨true, true⟩ 1 (Source.mk text none).lines { memory := #[7, 7] }
    let loaded := load ⟨true, true⟩ ⟨text, none⟩ #[7, 7]
    let last : Attempt := ⟨0xFFFF0000, 0xFFFF, 252, 0⟩
    last ∈ attempts ∧ last.index.toUInt32.toNat = 2 ^ 30 + 62 ∧
      (∀ a ∈ attempts, a.exactIndex ≠ 0) ∧ loaded.memory[0]? = some 7 ∧
      (loaded.events.toList.filterMap Event.dropped?).length = 64 := by
  intro text attempts loaded last
  obtain ⟨_, hexact, _, _, hdropped, hkept⟩ :=
    load_exact_indices ⟨true, true⟩ ⟨text, none⟩ #[7, 7]
  have hlast : last ∈ attempts := by decide +kernel
  have hindices : ∀ a ∈ attempts, a.exactIndex ≠ 0 := by decide +kernel
  refine ⟨hlast, (hexact last hlast).narrow.trans (by decide), hindices, hkept 0 hindices, ?_⟩
  exact (congrArg List.length hdropped).trans (by decide +kernel)

end HexBench.Image
