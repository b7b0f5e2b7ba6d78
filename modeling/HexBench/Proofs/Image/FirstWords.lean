import HexBench.Fill
import HexBench.Proofs.Image.Run

set_option autoImplicit false

namespace HexBench

namespace Memory

theorem extract_putAll (m : Memory) (ws : List (Nat × UInt32)) (n : Nat) :
    putAll (m.extract 0 n) ws = (m.putAll ws).extract 0 n := by
  apply Array.ext_getElem?
  intro i
  rw [getElem?_putAll, Array.getElem?_extract, Array.getElem?_extract, size_putAll, Nat.zero_add,
    getElem?_putAll]
  split
  · rfl
  · rfl

/-- A memory that has its first words from one memory and all others from another. -/
structure Joins (n : Nat) (first rest joined : Memory) : Prop where
  first : ∀ i < n, joined[i]? = first[i]?
  rest : ∀ i, n ≤ i → joined[i]? = rest[i]?

theorem joins_fillFirst {n : Nat} {filling : Memory → Filled} {memory whole : Memory}
    (hn : n ≤ memory.size) (hsize : whole.size = memory.size)
    (hfilled : (filling (memory.extract 0 n)).memory = whole.extract 0 n) :
    Joins n whole memory (memory.fillFirst n filling).memory := by
  have hfirst : (whole.extract 0 n).size = n := by
    rw [Array.size_extract, hsize]
    omega
  have hmemory : (memory.fillFirst n filling).memory =
      whole.extract 0 n ++ memory.extract n memory.size := by
    rw [fillFirst, hfilled]
  refine ⟨fun i hi => ?_, fun i hi => ?_⟩
  · rw [hmemory, Array.getElem?_append_left (by omega), Array.getElem?_extract, hsize,
      if_pos (by omega), Nat.zero_add]
  · rw [hmemory, Array.getElem?_append_right (by omega), hfirst, Array.getElem?_extract,
      Nat.add_sub_cancel' hi]
    split
    · rfl
    · exact (Array.getElem?_eq_none (by omega)).symm

end Memory

namespace Image

/-- Counts of a load into fewer words next to those of a load into more: the same records, and the
same words, of which no more are written. -/
structure Summary.Clips (fewer more : Summary) : Prop where
  records : fewer.records = more.records
  skipped : fewer.skipped = more.skipped
  malformed : fewer.malformed = more.malformed
  words : fewer.written + fewer.dropped = more.written + more.dropped
  written : fewer.written ≤ more.written

theorem tally_clips {size fewer : Nat} (h : fewer ≤ size) (ps : List Placed) (vs : List Verdict) :
    (tally fewer ps vs).Clips (tally size ps vs) where
  records := rfl
  skipped := rfl
  malformed := rfl
  words := by
    have hfewer := Summary.ofWords_sum fewer (ps.flatMap Placed.writes)
    have hsize := Summary.ofWords_sum size (ps.flatMap Placed.writes)
    simp only [tally, Summary.plus, Nat.zero_add, hfewer, hsize]
  written := by
    have hmono : ∀ w ∈ ps.flatMap Placed.writes, decide (w.1 < fewer) = true →
        decide (w.1 < size) = true := by
      intro w _ hw
      simp only [decide_eq_true_eq] at hw ⊢
      omega
    simp only [tally, Summary.plus, Nat.zero_add]
    exact List.countP_mono_left hmono

theorem load_extract (o : Options) (text : Bytes) (memory : Memory) (n : Nat) :
    (load o ⟨text, none⟩ (memory.extract 0 n)).memory =
      (load o ⟨text, none⟩ memory).memory.extract 0 n := by
  rw [(load_text o text (memory.extract 0 n)).1, (load_text o text memory).1,
    Memory.extract_putAll]

end Image

open Image (Options Sources Summary load tally applied verdicts)

section Fill

variable {o : Options} {text : Bytes} {sources : Sources} {path : String}

theorem fill_text (h : sources path = .ok ⟨text, none⟩) (memory : Memory) :
    (fill sources o path memory).memory = (load o ⟨text, none⟩ memory).memory ∧
      .counted path (tally memory.size (applied o text) (verdicts o text.lines.all)) ∈
        (fill sources o path memory).events := by
  have hloaded : Image.loadFile sources o path memory =
      ⟨(load o ⟨text, none⟩ memory).memory, (load o ⟨text, none⟩ memory).events,
        .ok (tally memory.size (applied o text) (verdicts o text.lines.all))⟩ := by
    simp only [Image.loadFile, h]
    rw [(Image.load_text o text memory).2]
    rfl
  simp [fill, hloaded, Fill.conclusion]

theorem readmemh_text {found : Fill.Event → Sources} {name : Bytes} (memory : Memory)
    (h : found (.requested (Fill.nameOf name) memory.size) (Fill.nameOf name) =
      .ok ⟨text, none⟩) :
    (readmemh found o (some name) true memory).memory = (load o ⟨text, none⟩ memory).memory ∧
      .counted (Fill.nameOf name)
          (tally memory.size (applied o text) (verdicts o text.lines.all)) ∈
        (readmemh found o (some name) true memory).events := by
  obtain ⟨hmemory, hcounted⟩ := fill_text (o := o) h memory
  exact ⟨hmemory, List.mem_cons_of_mem _ hcounted⟩

end Fill

/-- A load into the first words of a memory, made directly or through a request to fill, leaves
there what a load into the whole memory leaves there, and all other words as they are. It counts
the same records, and as many words, of which it writes no more. -/
theorem load_first_words (o : Options) (text : Bytes) (memory : Memory) (n : Nat)
    (hn : n ≤ memory.size) :
    let part := load o ⟨text, none⟩ (memory.extract 0 n)
    let whole := load o ⟨text, none⟩ memory
    part.memory = whole.memory.extract 0 n ∧
    ∃ fewer more, part.result = .ok fewer ∧ whole.result = .ok more ∧ fewer.Clips more ∧
      (∀ (sources : Sources) (path : String), sources path = .ok ⟨text, none⟩ →
        let filled := memory.fillFirst n (fill sources o path)
        Memory.Joins n whole.memory memory filled.memory ∧ .counted path fewer ∈ filled.events) ∧
      ∀ (found : Fill.Event → Sources) (name : Bytes),
        found (.requested (Fill.nameOf name) n) (Fill.nameOf name) = .ok ⟨text, none⟩ →
        let filled := memory.fillFirst n (readmemh found o (some name) true)
        Memory.Joins n whole.memory memory filled.memory ∧
          .counted (Fill.nameOf name) fewer ∈ filled.events := by
  intro part whole
  obtain ⟨hmemory, hwhole⟩ := Image.load_text o text memory
  have hpart := (Image.load_text o text (memory.extract 0 n)).2
  have hextract : part.memory = whole.memory.extract 0 n := Image.load_extract o text memory n
  have hsize : whole.memory.size = memory.size := by rw [hmemory, Memory.size_putAll]
  have hfirst : (memory.extract 0 n).size = n := by
    rw [Array.size_extract]
    omega
  rw [hfirst] at hpart
  refine ⟨hextract, _, _, hpart, hwhole, Image.tally_clips hn _ _, ?_, ?_⟩
  · intro sources path hsources filled
    obtain ⟨hfilled, hcounted⟩ := fill_text (o := o) hsources (memory.extract 0 n)
    rw [hfirst] at hcounted
    exact ⟨Memory.joins_fillFirst hn hsize (hfilled.trans hextract), hcounted⟩
  · intro found name hfound filled
    obtain ⟨hfilled, hcounted⟩ :=
      readmemh_text (o := o) (memory.extract 0 n) (by rw [hfirst]; exact hfound)
    rw [hfirst] at hcounted
    exact ⟨Memory.joins_fillFirst hn hsize (hfilled.trans hextract), hcounted⟩

/-- The first record has words for the four places behind the first, and only two of these are
handed over. -/
theorem load_first_words_clipped :
    let text := Bytes.ofString
      ":1000040001000000020000000300000004000000E2\n:0400000005000000F7\n"
    let memory : Memory := #[9, 9, 9, 9, 9]
    let sources : Sources := fun _ => .ok ⟨text, none⟩
    let filled := memory.fillFirst 3 (fill sources {} "image")
    let requested := memory.fillFirst 3
      (readmemh (fun _ => sources) {} (some (Bytes.ofString "image")) true)
    3 ≤ memory.size ∧ sources "image" = .ok ⟨text, none⟩ ∧
      (load {} ⟨text, none⟩ (memory.extract 0 3)).memory = #[5, 1, 2] ∧
      filled.memory[2]? = some 2 ∧ filled.memory[4]? = some 9 ∧
      requested.memory[0]? = some 5 ∧ requested.memory[3]? = some 9 := by
  intro text memory sources filled requested
  obtain ⟨hpart, _, _, _, _, _, hfill, hrequest⟩ :=
    load_first_words {} text memory 3 (by decide)
  have hfilled := (hfill sources "image" rfl).1
  have hrequested := (hrequest (fun _ => sources) (Bytes.ofString "image") rfl).1
  refine ⟨by decide, rfl, hpart.trans (by decide +kernel), ?_, ?_, ?_, ?_⟩
  · exact (hfilled.first 2 (by decide)).trans (by decide +kernel)
  · exact hfilled.rest 4 (by decide)
  · exact (hrequested.first 0 (by decide)).trans (by decide +kernel)
  · exact hrequested.rest 3 (by decide)

end HexBench
