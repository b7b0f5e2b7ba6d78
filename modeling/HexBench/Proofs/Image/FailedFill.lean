import HexBench.Fill
import HexBench.Proofs.Image.Delivered

set_option autoImplicit false

namespace HexBench

open Image (Options Source Sources FileFailure load isEnd writes)
open Memory (lastWord? lastWord?_of_last lastWord?_eq_none_iff getElem?_putAll size_putAll)

namespace Image

variable {o : Options} {bytes : Bytes}

theorem load_failing (hrunning : bytes.lines.ended.any (isEnd o) = false) (text : String)
    (memory : Memory) :
    (load o ⟨bytes, some text⟩ memory).result = .error text ∧
      (load o ⟨bytes, some text⟩ memory).memory = memory.putAll (writes o bytes.wholeLines) := by
  have hlines : bytes.wholeLines.lines.all = bytes.lines.ended := by
    rw [Bytes.lines_wholeLines]
    rfl
  have hstopped : (Load.run o 1 bytes.lines.ended { memory }).stopped = false := by
    rw [Load.stopped_run, hrunning]
    rfl
  constructor
  · change (if (Load.run o 1 bytes.lines.ended { memory }).stopped then _ else _) = _
    rw [hstopped]
    rfl
  · have hwrites : writes o bytes.wholeLines =
        (placed 0 (verdicts o bytes.lines.ended)).flatMap Placed.writes := by
      rw [writes, applied, hlines]
    rw [hwrites]
    exact (Load.run_eq o bytes.lines.ended 1 { memory } rfl isBase_zero).1

end Image

namespace Memory

theorem putAll_eq_self_iff (ws : List (Nat × UInt32)) :
    (∀ m : Memory, m.putAll ws = m) ↔ ws = [] := by
  constructor
  · intro h
    cases hws : ws.getLast? with
    | none => exact List.getLast?_eq_none_iff.mp hws
    | some last =>
      -- A memory that holds another word where the last one is put, and nothing else.
      obtain ⟨i, w⟩ := last
      obtain ⟨before, rfl⟩ := List.getLast?_eq_some_iff.mp hws
      have hput := congrArg (·[i]?) (h (Array.replicate (i + 1) (w + 1)))
      have hlast : lastWord? (before ++ [(i, w)]) i = some w := lastWord?_of_last List.not_mem_nil
      simp [getElem?_putAll, hlast] at hput
  · rintro rfl m
    rfl

end Memory

section Fill

variable {sources : Sources} {o : Options} {path : String}

theorem failed_mem_fill_iff (memory : Memory) (e : FileFailure) :
    .failed e ∈ (fill sources o path memory).events ↔
      (Image.loadFile sources o path memory).result = .error e := by
  have hloading (events : List Image.Event) : Fill.Event.failed e ∉ events.map .loading := by simp
  rw [fill, List.mem_append, or_iff_right (hloading _)]
  cases (Image.loadFile sources o path memory).result with
  | error e' => simp [Fill.conclusion, eq_comm]
  | ok s => simp [Fill.conclusion]

theorem fill_cannotOpen {e : FileError} (h : sources path = .error e) (memory : Memory) :
    fill sources o path memory = ⟨memory, [.failed (.cannotOpen path e)]⟩ := by
  simp [fill, Image.loadFile, h, Fill.conclusion]

theorem result_loadFile {source : Source} (h : sources path = .ok source) (memory : Memory) :
    (Image.loadFile sources o path memory).result =
      (load o source memory).result.mapError (.reading path) := by
  simp only [Image.loadFile, h]

theorem memory_fill {source : Source} (h : sources path = .ok source) (memory : Memory) :
    (fill sources o path memory).memory = (load o source memory).memory := by
  simp only [fill, Image.loadFile, h]

theorem fill_fails_iff {bytes : Bytes} {failure : Option String}
    (h : sources path = .ok ⟨bytes, failure⟩) (memory : Memory) :
    (∃ e, .failed e ∈ (fill sources o path memory).events) ↔
      failure.isSome ∧ bytes.lines.ended.any (isEnd o) = false := by
  simp only [failed_mem_fill_iff, result_loadFile h]
  cases failure with
  | none => simp [(Image.load_text o bytes memory).2, Except.mapError]
  | some text =>
    cases hend : bytes.lines.ended.any (isEnd o) with
    | true =>
      have hstopped := Image.load_stopped hend [] (some text) memory
      rw [List.append_nil] at hstopped
      simp [hstopped, Except.mapError]
    | false => simp [(Image.load_failing hend text memory).1, Except.mapError]

end Fill

/-- A fill fails where its image cannot be opened, and then the memory is as it was; or where the
image cannot be read on and no end-of-file record has ended the load. In this case all words of the
records on the lines that were ended are in the memory, the last one that was put at an index
counting, and the memory is sure to be as it was only if there are no such words. A request by name
fares no better. -/
theorem fill_failed (sources : Sources) (o : Options) (path : String) (memory : Memory) :
    let filled := fill sources o path memory
    ((∃ e, .failed e ∈ filled.events) ↔
      (∃ e, sources path = .error e) ∨
        ∃ bytes text, sources path = .ok ⟨bytes, some text⟩ ∧
          bytes.lines.ended.any (isEnd o) = false) ∧
    (∀ e, sources path = .error e → filled = ⟨memory, [.failed (.cannotOpen path e)]⟩) ∧
    (∀ bytes text, sources path = .ok ⟨bytes, some text⟩ →
      bytes.lines.ended.any (isEnd o) = false →
        let put := writes o bytes.wholeLines
        .failed (.reading path text) ∈ filled.events ∧
        filled.memory.size = memory.size ∧
        (∀ before i w after, put = before ++ (i, w) :: after → i ∉ after.map Prod.fst →
          i < memory.size → filled.memory[i]? = some w) ∧
        (∀ i, i ∉ put.map Prod.fst → filled.memory[i]? = memory[i]?) ∧
        (bytes.lines.ended = [] → filled.memory = memory) ∧
        ((∀ m : Memory, (fill sources o path m).memory = m) ↔ put = [])) ∧
    ∀ (found : Fill.Event → Sources) (name : Bytes),
      found (.requested (Fill.nameOf name) memory.size) = sources → Fill.nameOf name = path →
        readmemh found o (some name) true memory =
          ⟨filled.memory, .requested path memory.size :: filled.events⟩ := by
  intro filled
  refine ⟨?_, fun e he => fill_cannotOpen he memory, fun bytes text hsource hrunning => ?_, ?_⟩
  · cases hsource : sources path with
    | error e => simp [filled, fill_cannotOpen hsource memory]
    | ok source =>
      obtain ⟨bytes, failure⟩ := source
      rw [fill_fails_iff hsource]
      cases failure <;> simp
  · intro put
    have hput (m : Memory) : (fill sources o path m).memory = m.putAll put :=
      (memory_fill hsource m).trans (Image.load_failing hrunning text m).2
    have hfilled : filled.memory = memory.putAll put := hput memory
    refine ⟨?_, ?_, ?_, ?_, ?_, ?_⟩
    · rw [failed_mem_fill_iff, result_loadFile hsource, (Image.load_failing hrunning text memory).1]
      rfl
    · rw [hfilled, size_putAll]
    · intro before i w after hsplit hlast hi
      rw [hfilled, getElem?_putAll, hsplit, lastWord?_of_last hlast, Array.getElem?_eq_getElem hi]
      rfl
    · intro i hi
      rw [hfilled, getElem?_putAll, (lastWord?_eq_none_iff put i).mpr hi]
      simp
    · intro hnone
      have hempty : put = [] := by
        simp only [put, writes, Image.applied, Bytes.lines_wholeLines, hnone]
        rfl
      rw [hfilled, hempty]
      rfl
    · simp only [hput]
      exact Memory.putAll_eq_self_iff put
  · rintro found name rfl rfl
    rfl

/-- The reader fails behind two records. The words of both are in the memory. -/
theorem fill_failed_behind_records :
    let bytes := Bytes.ofString ":0400000001000000FB\n:0400040002000000F6\n:04"
    let sources : Sources := fun _ => .ok ⟨bytes, some "Input/output error (os error 5)"⟩
    let filled := fill sources ⟨true, true⟩ "image" #[7, 7, 7]
    bytes.lines.ended.any (isEnd ⟨true, true⟩) = false ∧
      (∃ e, .failed e ∈ filled.events) ∧
      filled.memory[1]? = some 2 ∧ filled.memory[2]? = some 7 ∧
      (∃ m : Memory, (fill sources ⟨true, true⟩ "image" m).memory ≠ m) := by
  intro bytes sources filled
  have hrunning : bytes.lines.ended.any (isEnd ⟨true, true⟩) = false := by decide +kernel
  have hput : writes ⟨true, true⟩ bytes.wholeLines = [(0, 1), (1, 2)] := by decide +kernel
  obtain ⟨_, _, hreading, _⟩ := fill_failed sources ⟨true, true⟩ "image" #[7, 7, 7]
  obtain ⟨hfailed, _, hlast, hrest, _, hsame⟩ := hreading bytes _ rfl hrunning
  refine ⟨hrunning, ⟨_, hfailed⟩, hlast [(0, 1)] 1 2 [] hput (by decide) (by decide),
    hrest 2 (by rw [hput]; decide), ?_⟩
  rw [hput] at hsame
  by_contra hall
  have hnone := hsame.mp fun m => by_contra fun hm => hall ⟨m, hm⟩
  cases hnone

/-- A fill whose image is lost behind the first record has changed the memory, and reports that it
failed. -/
theorem failed_fill_changes_memory :
    let bytes := Bytes.ofString ":0400000078563412E8\n"
    let failure := "Input/output error (os error 5)"
    let filled := fill (fun _ => .ok ⟨bytes, some failure⟩) {} "image" #[7, 7]
    .failed (.reading "image" failure) ∈ filled.events ∧
      filled.memory = #[0x12345678, 7] := by
  decide +kernel

end HexBench
