import HexBench.Proofs.Image.Run

set_option autoImplicit false

namespace HexBench.Image

open Memory (lastWord? lastWord?_append lastWord?_singleton lastWord?_of_last
  lastWord?_eq_none_iff putAll_putAll size_putAll getElem?_putAll)

/-- There is one list of writes for a text and its options, whatever the memory: the words of each
applied record go to consecutive indices. A load always ends well, leaves at each index the last
word that is written there, and counts the writes inside and outside the memory. A second load of
the same text changes nothing. -/
theorem load_last_word (o : Options) (text : Bytes) :
    (∀ p ∈ applied o text,
      p.writes.map Prod.fst = List.range' (p.address / 4) ((p.record.payload.length + 3) / 4) ∧
        p.writes.map Prod.snd = p.record.words.map Prod.snd) ∧
    ∀ memory : Memory,
      let loaded := load o ⟨text, none⟩ memory
      ∃ s : Summary, loaded.result = .ok s ∧
        loaded.memory.size = memory.size ∧
        (∀ before i w after, writes o text = before ++ (i, w) :: after → i ∉ after.map Prod.fst →
          i < memory.size → loaded.memory[i]? = some w) ∧
        (∀ i, i ∉ (writes o text).map Prod.fst → loaded.memory[i]? = memory[i]?) ∧
        s.records = (applied o text).length ∧
        s.written = (writes o text).countP (fun w => w.1 < memory.size) ∧
        s.dropped = (writes o text).countP (fun w => memory.size ≤ w.1) ∧
        (load o ⟨text, none⟩ loaded.memory).memory = loaded.memory ∧
        (load o ⟨text, none⟩ loaded.memory).result = loaded.result := by
  refine ⟨fun p _ => ⟨p.writes_indices, p.writes_words⟩, fun memory => ?_⟩
  obtain ⟨hmemory, hresult⟩ := load_text o text memory
  obtain ⟨hagain, hresult'⟩ := load_text o text (memory.putAll (writes o text))
  simp only [hmemory, hresult, hagain, hresult', size_putAll, putAll_putAll]
  refine ⟨_, rfl, trivial, ?_, ?_, rfl, ?_, ?_, trivial, trivial⟩
  · intro before i w after hsplit hlast hi
    rw [getElem?_putAll, hsplit, lastWord?_of_last hlast, Array.getElem?_eq_getElem hi]
    rfl
  · intro i hi
    rw [getElem?_putAll, (lastWord?_eq_none_iff _ i).mpr hi]
    simp
  · exact Nat.zero_add _
  · exact Nat.zero_add _

theorem load_last_word_overlapping :
    let text := Bytes.ofString
      ":080000000100000002000000F5\n:020006000304F1\n:0400140005000000E3\n"
    let loaded := (load {} ⟨text, none⟩ #[7, 7, 7]).memory
    (∃ p ∈ applied {} text, p.writes.map Prod.fst = [0, 1]) ∧
      writes {} text = [(0, 1), (1, 2), (1, 0x403), (5, 5)] ∧
      loaded[1]? = some 0x403 ∧ loaded[2]? = some 7 := by
  intro text loaded
  let first := (applied {} text).head (by decide +kernel)
  have hmem : first ∈ applied {} text := List.head_mem _
  have hwrites : writes {} text = [(0, 1), (1, 2), (1, 0x403), (5, 5)] := by decide +kernel
  obtain ⟨hplaced, hload⟩ := load_last_word {} text
  obtain ⟨_, _, _, hlast, hrest, _⟩ := hload #[7, 7, 7]
  have hfirst : first.writes.map Prod.fst = [0, 1] :=
    (hplaced first hmem).1.trans (by decide +kernel)
  exact ⟨⟨first, hmem, hfirst⟩, hwrites,
    hlast [(0, 1), (1, 2)] 1 0x403 [(5, 5)] hwrites (by decide) (by decide),
    hrest 2 (by rw [hwrites]; decide)⟩

namespace Placed

/-- The byte that a record gives to a byte address, if it covers the address. It covers whole words,
and is zero behind its payload. -/
def byte? (x : Nat) (p : Placed) : Option UInt8 :=
  let n := p.record.payload.length
  if p.address ≤ x ∧ x < p.address + 4 * ((n + 3) / 4) then
    some (p.record.payload.getD (x - p.address) 0)
  else none

end Placed

theorem lastWord?_consecutive (start n : Nat) (f : Nat → UInt32) (i : Nat) :
    lastWord? ((List.range n).map fun k => (start + k, f k)) i =
      if start ≤ i ∧ i < start + n then some (f (i - start)) else none := by
  induction n with
  | zero =>
    rw [if_neg (by omega)]
    rfl
  | succ n ih =>
    rw [List.range_succ, List.map_append, List.map_singleton, lastWord?_append,
      lastWord?_singleton, ih]
    by_cases hlast : start + n = i
    · subst hlast
      rw [if_pos rfl, if_neg (by omega), if_pos (by omega), Nat.add_sub_cancel_left]
      rfl
    · rw [if_neg hlast, Option.none_or]
      by_cases hi : start ≤ i ∧ i < start + n
      · rw [if_pos hi, if_pos (by omega)]
      · rw [if_neg hi, if_neg (by omega)]

namespace Placed

theorem address_mod_four {p : Placed} (h : p.Fits) (ha : p.record.address.toNat % 4 = 0) :
    p.address % 4 = 0 := by
  have hbase := h.base.mod_four
  unfold address
  omega

theorem byte?_eq {p : Placed} (ha : p.address % 4 = 0) (x : Nat) :
    p.byte? x = (lastWord? p.writes (x / 4)).map fun w => byteOf w (x % 4) := by
  have hcount : wordCount p.record.payload.length = (p.record.payload.length + 3) / 4 := rfl
  rw [writes, lastWord?_consecutive, byte?]
  by_cases h : p.address ≤ x ∧ x < p.address + 4 * ((p.record.payload.length + 3) / 4)
  · rw [if_pos h, if_pos (by omega), Option.map_some, byteOf_wordAt _ _ _ (by omega)]
    congr 2
    omega
  · rw [if_neg h, if_neg (by omega)]
    rfl

end Placed

theorem findSome?_byte?_eq (ps : List Placed) (h : ∀ p ∈ ps, p.address % 4 = 0) (x : Nat) :
    ps.reverse.findSome? (Placed.byte? x) =
      (lastWord? (ps.flatMap Placed.writes) (x / 4)).map fun w => byteOf w (x % 4) := by
  induction ps with
  | nil => rfl
  | cons p ps ih =>
    have hrest := ih fun q hq => h q (List.mem_cons_of_mem p hq)
    rw [List.reverse_cons, List.findSome?_append, hrest, List.flatMap_cons, lastWord?_append,
      List.findSome?_singleton, Placed.byte?_eq (h p List.mem_cons_self)]
    cases lastWord? (ps.flatMap Placed.writes) (x / 4) <;> rfl

/-- Where all applied records start at a multiple of four, a load leaves at each byte address the
byte of the last record that covers it, and the old byte if none does. Addresses count on from the
base in force, past 64 KiB, and there is no base but zero without address records. -/
theorem load_last_byte (o : Options) (text : Bytes) (memory : Memory)
    (haligned : ∀ p ∈ applied o text, p.record.address.toNat % 4 = 0) :
    (o.extendedRecords = false → ∀ p ∈ applied o text, p.base = 0) ∧
      ∀ x < 4 * memory.size, (load o ⟨text, none⟩ memory).memory.byte? x =
        ((applied o text).reverse.findSome? (Placed.byte? x)).or (memory.byte? x) := by
  refine ⟨fun ho => placed_base ho (verdicts_sound o _) 0, fun x hx => ?_⟩
  have haddress : ∀ p ∈ applied o text, p.address % 4 = 0 := fun p hp =>
    Placed.address_mod_four (applied_fits o text p hp) (haligned p hp)
  have hsize : x / 4 < memory.size := by omega
  rw [findSome?_byte?_eq _ haddress, (load_text o text memory).1, Memory.byte?, Memory.byte?,
    getElem?_putAll, Array.getElem?_eq_getElem hsize]
  change _ = (Option.map _ (lastWord? (writes o text) (x / 4))).or _
  cases lastWord? (writes o text) (x / 4) <;> rfl

theorem load_last_byte_past_64k :
    let text := Bytes.ofString ":08FFFC000102030405060708D9\n:01000000AA55\n"
    let memory : Memory := Array.replicate 0x4001 0x0F0F0F0F
    let loaded := (load {} ⟨text, none⟩ memory).memory
    (∀ p ∈ applied {} text, p.record.address.toNat % 4 = 0) ∧
      loaded.byte? 0 = some 0xAA ∧ loaded.byte? 1 = some 0 ∧ loaded.byte? 4 = some 0x0F ∧
      loaded.byte? 0x10000 = some 5 := by
  intro text memory loaded
  have haligned : ∀ p ∈ applied {} text, p.record.address.toNat % 4 = 0 := by decide +kernel
  have hbytes := (load_last_byte {} text memory haligned).2
  have hsize : memory.size = 0x4001 := Array.size_replicate
  refine ⟨haligned, ?_, ?_, ?_, ?_⟩
  · exact (hbytes 0 (by omega)).trans (by decide +kernel)
  · exact (hbytes 1 (by omega)).trans (by decide +kernel)
  · exact (hbytes 4 (by omega)).trans (by decide +kernel)
  · exact (hbytes 0x10000 (by omega)).trans (by decide +kernel)

end HexBench.Image
