import HexBench.Proofs.Image.LoadedMemory
import HexBench.Proofs.Record.Encoding
import Mathlib.Data.List.Forall2
import Mathlib.Data.List.GetD

set_option autoImplicit false

namespace HexBench.Image

open Memory (lastWord? getElem?_putAll size_putAll)

structure Chunk where
  words : List UInt32
  nonempty : 1 ≤ words.length
  fits : words.length ≤ 63

namespace Chunk

def payload (c : Chunk) : Bytes := c.words.flatMap wordBytes

theorem payload_length (c : Chunk) : c.payload.length = 4 * c.words.length :=
  flatMap_wordBytes_length c.words

theorem payload_lt (c : Chunk) : c.payload.length < 256 := by
  have hfits := c.fits
  rw [c.payload_length]
  omega

end Chunk

def upperBits (index : Nat) : Nat := 4 * index / 65536

def upperRecord (upper : Nat) : Bytes :=
  Record.bytes 4 0 [UInt8.ofNat (upper / 256), UInt8.ofNat upper]

def dataRecord (index : Nat) (c : Chunk) : Bytes :=
  Record.bytes 0 (4 * index % 65536) c.payload

def endRecord : Bytes := Record.bytes 1 0 []

/-- The records of chunks from an index on, where the given upper address bits are in force. -/
def recordsFrom (upper index : Nat) : List Chunk → List Bytes
  | [] => [endRecord]
  | c :: cut =>
    let rest := dataRecord index c :: recordsFrom (upperBits index) (index + c.words.length) cut
    if upperBits index = upper then rest else upperRecord (upperBits index) :: rest

/-- A text that writes chunks from a word index on. Each digit is in either case, and each line ends
in a line feed, with or without a carriage return before it. -/
def Encodes (text : Bytes) (index : Nat) (cut : List Chunk) : Prop :=
  ∃ lines, List.Forall₂ Record.IsLine lines (recordsFrom 0 index cut) ∧
    text = lines.flatMap (· ++ [Bytes.lineFeed])

def Options.strict : Options := ⟨true, true⟩

def consecutive (index : Nat) (ws : List UInt32) : List (Nat × UInt32) :=
  (ws.zipIdx index).map Prod.swap

theorem consecutive_append (index : Nat) (xs ys : List UInt32) :
    consecutive index (xs ++ ys) = consecutive index xs ++ consecutive (index + xs.length) ys := by
  rw [consecutive, List.zipIdx_append, List.map_append]
  rfl

theorem consecutive_eq (index : Nat) (ws : List UInt32) :
    consecutive index ws = (List.range ws.length).map fun i => (index + i, ws.getD i 0) := by
  apply List.ext_getElem
  · simp [consecutive]
  · intro i h1 h2
    have hi : i < ws.length := by simpa using h2
    simp [consecutive, hi]

theorem lastWord?_consecutive_words (index : Nat) (ws : List UInt32) (i : Nat) :
    lastWord? (consecutive index ws) i = if index ≤ i then ws[i - index]? else none := by
  rw [consecutive_eq, lastWord?_consecutive]
  by_cases hi : index ≤ i ∧ i < index + ws.length
  · rw [if_pos hi, if_pos hi.1, List.getElem?_eq_getElem (by omega),
      List.getD_eq_getElem _ _ (by omega)]
  · rw [if_neg hi]
    split_ifs with hle
    · rw [List.getElem?_eq_none (by omega)]
    · rfl

theorem ofLine_written {line : Bytes} {code : UInt8} {address : Nat} {payload : Bytes}
    (h : Record.IsLine line (Record.bytes code address payload)) (hlen : payload.length < 256) :
    Verdict.ofLine .strict line = Verdict.ofKind .strict (.written code address payload) := by
  rw [Verdict.ofLine, if_pos h.head?, h.parse hlen]
  simp only [Verdict.ofRecord, Record.written_checksumOk, Bool.not_true, Bool.and_false,
    Bool.false_eq_true, if_false]

theorem ofLine_endRecord {line : Bytes} (h : Record.IsLine line endRecord) :
    Verdict.ofLine .strict line = .endOfFile :=
  ofLine_written h (by decide)

theorem ofLine_dataRecord {line : Bytes} {index : Nat} {c : Chunk}
    (h : Record.IsLine line (dataRecord index c)) :
    Verdict.ofLine .strict line = .data (.written 0 (4 * index % 65536) c.payload) :=
  ofLine_written h c.payload_lt

theorem ofLine_upperRecord {line : Bytes} {upper : Nat} (hupper : upper < 65536)
    (h : Record.IsLine line (upperRecord upper)) :
    ∃ base, Verdict.ofLine .strict line = .base base ∧ base.toNat = 65536 * upper := by
  refine ⟨_, ofLine_written h (by simp), ?_⟩
  have hvalue := Verdict.upperAddress_toNat (UInt8.ofNat (upper / 256)) (UInt8.ofNat upper)
  simp only [UInt8.toNat_ofNat'] at hvalue
  rw [UInt64.toNat_shiftLeft, hvalue]
  simp only [UInt64.reduceToNat, Nat.reduceMod, Nat.shiftLeft_eq]
  omega

theorem writes_dataRecord {base : UInt64} {index : Nat}
    (hbase : base.toNat = 65536 * upperBits index) (c : Chunk) :
    Placed.writes ⟨base, .written 0 (4 * index % 65536) c.payload⟩ =
      consecutive index c.words := by
  have haddress : Placed.address ⟨base, .written 0 (4 * index % 65536) c.payload⟩ = 4 * index := by
    simp only [Placed.address, hbase, upperBits, Record.written, UInt16.toNat_ofNat']
    omega
  have hcount : wordCount c.payload.length = c.words.length := by
    rw [c.payload_length, wordCount]
    omega
  rw [Placed.writes, haddress, consecutive_eq]
  change (List.range (wordCount c.payload.length)).map
    (fun i => (4 * index / 4 + i, wordAt c.payload i)) = _
  rw [hcount]
  apply List.map_congr_left
  intro i hi
  have hi' := List.mem_range.mp hi
  rw [Chunk.payload, wordAt_flatMap _ _ hi', List.getD_eq_getElem _ _ hi',
    Nat.mul_div_cancel_left _ (by decide)]

/-- What a load hears of written chunks: as many applied records as chunks, whose writes are the
words one after the other, and nothing passed over or malformed. -/
structure Hears (base : UInt64) (index : Nat) (cut : List Chunk) (vs : List Verdict) : Prop where
  length : (placed base vs).length = cut.length
  writes : (placed base vs).flatMap Placed.writes = consecutive index (cut.flatMap Chunk.words)
  ignored : vs.countP Verdict.isIgnored = 0
  faults : vs.countP Verdict.isFault = 0

theorem hears_recordsFrom (cut : List Chunk) {upper index : Nat} {base : UInt64}
    (hbase : base.toNat = 65536 * upper)
    (hroom : index + (cut.flatMap Chunk.words).length ≤ 2 ^ 30) {lines : List Bytes}
    (hlines : List.Forall₂ Record.IsLine lines (recordsFrom upper index cut)) :
    Hears base index cut (verdicts .strict lines) := by
  -- The base in force has the upper bits that the text counts on: every record that changes them is
  -- heard first.
  induction cut generalizing upper index base lines with
  | nil =>
    cases hlines with
    | cons hend hrest =>
      cases hrest
      rw [verdicts_cons, ofLine_endRecord hend]
      exact ⟨rfl, rfl, rfl, rfl⟩
  | cons c cut ih =>
    rw [List.flatMap_cons, List.length_append] at hroom
    have hchunk := c.nonempty
    -- From the data record of the chunk on, with its own upper bits in force.
    have hdata : ∀ {base : UInt64} {lines : List Bytes}, base.toNat = 65536 * upperBits index →
        List.Forall₂ Record.IsLine lines
          (dataRecord index c :: recordsFrom (upperBits index) (index + c.words.length) cut) →
        Hears base index (c :: cut) (verdicts .strict lines) := by
      intro base lines hbase hlines
      cases hlines with
      | cons hline hrest =>
        have hears := ih hbase (by omega) hrest
        rw [verdicts_cons, ofLine_dataRecord hline]
        refine ⟨?_, ?_, hears.ignored, hears.faults⟩
        · exact congrArg (· + 1) hears.length
        · change Placed.writes _ ++ (placed base _).flatMap Placed.writes = _
          rw [writes_dataRecord hbase, hears.writes, List.flatMap_cons, consecutive_append]
    rw [recordsFrom] at hlines
    split_ifs at hlines with hsame
    · exact hdata (hsame ▸ hbase) hlines
    · cases hlines with
      | cons hline hrest =>
        have hupper : upperBits index < 65536 := by
          unfold upperBits
          omega
        obtain ⟨next, hverdict, hnext⟩ := ofLine_upperRecord hupper hline
        have hears := hdata hnext hrest
        rw [verdicts_cons, hverdict]
        exact ⟨hears.length, hears.writes, hears.ignored, hears.faults⟩

theorem lines_of_records {lines records : List Bytes}
    (h : List.Forall₂ Record.IsLine lines records) :
    (Bytes.lines (lines.flatMap (· ++ [Bytes.lineFeed]))).all = lines := by
  apply Bytes.all_lines_flatMap
  induction h with
  | nil => exact List.forall_mem_nil _
  | cons hline _ ih => exact List.forall_mem_cons.mpr ⟨hline.lineFeed, ih⟩

theorem hears_of_encodes {text : Bytes} {index : Nat} {cut : List Chunk}
    (h : Encodes text index cut) (hroom : index + (cut.flatMap Chunk.words).length ≤ 2 ^ 30) :
    Hears 0 index cut (verdicts .strict text.lines.all) := by
  obtain ⟨lines, hlines, rfl⟩ := h
  rw [lines_of_records hlines]
  exact hears_recordsFrom cut rfl hroom hlines

theorem tally_of_hears {index : Nat} {cut : List Chunk} {vs : List Verdict}
    (h : Hears 0 index cut vs) (size : Nat)
    (hsize : index + (cut.flatMap Chunk.words).length ≤ size) :
    tally size (placed 0 vs) vs =
      { records := cut.length, written := (cut.flatMap Chunk.words).length } := by
  have hinside : ∀ w ∈ consecutive index (cut.flatMap Chunk.words), w.1 < size := by
    rw [consecutive_eq]
    intro w hw
    obtain ⟨i, hi, rfl⟩ := List.mem_map.mp hw
    have hi' := List.mem_range.mp hi
    simp only
    omega
  have hwritten : (consecutive index (cut.flatMap Chunk.words)).countP (fun w => w.1 < size) =
      (cut.flatMap Chunk.words).length := by
    rw [List.countP_eq_length.mpr (by simpa using hinside), consecutive_eq, List.length_map,
      List.length_range]
  have hdropped :
      (consecutive index (cut.flatMap Chunk.words)).countP (fun w => size ≤ w.1) = 0 := by
    apply List.countP_eq_zero.mpr
    intro w hw
    have hlt := hinside w hw
    simpa using hlt
  simp only [tally, Summary.plus, Summary.ofWords, h.writes, h.length, h.ignored, h.faults,
    hwritten, hdropped, Nat.zero_add, Nat.add_zero]

/-- Loading undoes writing. Whatever words an image holds, however it is cut into records, and
whichever digits and line ends its text has, a load with all options on puts each word back at its
index and leaves all others, and finds nothing to drop, to pass over or to complain about. -/
theorem load_encoded {text : Bytes} {index : Nat} {cut : List Chunk} {ws : List UInt32}
    (hcut : cut.flatMap Chunk.words = ws) (htext : Encodes text index cut)
    (hroom : index + ws.length ≤ 2 ^ 30) (memory : Memory)
    (hmemory : index + ws.length ≤ memory.size) :
    let loaded := load .strict ⟨text, none⟩ memory
    loaded.result = .ok
        { records := cut.length, written := ws.length, dropped := 0, skipped := 0, malformed := 0 } ∧
      loaded.memory.size = memory.size ∧
      (∀ i < ws.length, loaded.memory[index + i]? = ws[i]?) ∧
      ∀ j, j < index ∨ index + ws.length ≤ j → loaded.memory[j]? = memory[j]? := by
  subst hcut
  have hears := hears_of_encodes htext hroom
  obtain ⟨hloaded, hresult⟩ := load_text .strict text memory
  have hword : ∀ j, (load .strict ⟨text, none⟩ memory).memory[j]? = memory[j]?.map fun old =>
      (if index ≤ j then (cut.flatMap Chunk.words)[j - index]? else none).getD old := by
    intro j
    rw [hloaded, getElem?_putAll, writes, applied, hears.writes, lastWord?_consecutive_words]
  refine ⟨?_, ?_, ?_, ?_⟩
  · rw [hresult, applied, tally_of_hears hears memory.size hmemory]
  · rw [hloaded, size_putAll]
  · intro i hi
    rw [hword, if_pos (by omega), Array.getElem?_eq_getElem (by omega), Nat.add_sub_cancel_left,
      List.getElem?_eq_getElem hi]
    rfl
  · intro j hj
    rw [hword]
    have hnone : (if index ≤ j then (cut.flatMap Chunk.words)[j - index]? else none) = none := by
      split_ifs with hle
      · exact List.getElem?_eq_none (by omega)
      · rfl
    rw [hnone]
    simp

theorem load_encoded_across_64k :
    let text := Bytes.ofString
      ":08FFFC000100000002000000FA\n:020000040001F9\r\n:0400040003000000f5\n:00000001FF\r\n"
    let memory : Memory := Array.replicate 0x4002 9
    let loaded := load .strict ⟨text, none⟩ memory
    ∃ cut : List Chunk, cut.flatMap Chunk.words = [1, 2, 3] ∧ Encodes text 0x3FFF cut ∧
      loaded.memory[0x4001]? = some 3 ∧ loaded.memory[0]? = some 9 := by
  intro text memory loaded
  let cut : List Chunk := [⟨[1, 2], by decide, by decide⟩, ⟨[3], by decide, by decide⟩]
  have htext : Encodes text 0x3FFF cut := by
    let lines := [":08FFFC000100000002000000FA", ":020000040001F9\r", ":0400040003000000f5",
      ":00000001FF\r"].map Bytes.ofString
    have hspells {field bytes : Bytes} (h : Hex.decode field = .ok bytes) :
        Hex.Spells field bytes := Hex.decode_eq_ok_iff.mp h
    refine ⟨lines, ?_, by decide +kernel⟩
    refine .cons ⟨_, hspells (by decide +kernel), .inl rfl⟩ ?_
    refine .cons ⟨Bytes.ofString "020000040001F9", hspells (by decide +kernel), .inr rfl⟩ ?_
    refine .cons ⟨_, hspells (by decide +kernel), .inl rfl⟩ ?_
    exact .cons ⟨Bytes.ofString "00000001FF", hspells (by decide +kernel), .inr rfl⟩ .nil
  have hwords : cut.flatMap Chunk.words = [1, 2, 3] := rfl
  have hsize : memory.size = 0x4002 := Array.size_replicate
  obtain ⟨_, _, hword, hother⟩ :=
    load_encoded hwords htext (by decide) memory (by rw [hsize]; decide)
  exact ⟨cut, hwords, htext, hword 2 (by decide), (hother 0 (by decide)).trans (by decide +kernel)⟩

end HexBench.Image
