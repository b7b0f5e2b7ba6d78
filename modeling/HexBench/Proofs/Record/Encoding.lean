import HexBench.Proofs.Record.Parse
import HexBench.Proofs.Text.Lines

set_option autoImplicit false

namespace HexBench.Record

open Hex (Spells)

def counted (code : UInt8) (address : Nat) (payload : Bytes) : Bytes :=
  [UInt8.ofNat payload.length, UInt8.ofNat (address / 256), UInt8.ofNat address, code] ++ payload

/-- All bytes of a record. The last one is the two's complement of the sum of the others. -/
def bytes (code : UInt8) (address : Nat) (payload : Bytes) : Bytes :=
  counted code address payload ++ [-(counted code address payload).foldr (· + ·) 0]

def written (code : UInt8) (address : Nat) (payload : Bytes) : Record where
  length := UInt8.ofNat payload.length
  address := UInt16.ofNat address
  kind := .ofCode code
  payload
  checksum := some (-(counted code address payload).foldr (· + ·) 0)

/-- A line without its line feed, which may end in a carriage return. -/
def IsLine (line bytes : Bytes) : Prop :=
  ∃ field, Spells field bytes ∧ (line = startCode :: field ∨ line = startCode :: (field ++ [13]))

theorem code_ofCode (code : UInt8) : (RecordKind.ofCode code).code = code := by
  unfold RecordKind.ofCode
  split_ifs <;> first | rfl | exact Eq.symm ‹_›

theorem address_bytes (address : Nat) :
    (UInt8.ofNat (address / 256)).toUInt16 <<< 8 ||| (UInt8.ofNat address).toUInt16 =
      UInt16.ofNat address := by
  apply UInt16.toNat_inj.mp
  simp only [address_toNat, UInt8.toNat_ofNat', UInt16.toNat_ofNat']
  omega

theorem written_header (code : UInt8) (address : Nat) (payload : Bytes) :
    (written code address payload).header =
      [UInt8.ofNat payload.length, UInt8.ofNat (address / 256), UInt8.ofNat address, code] := by
  have hhigh : (UInt16.ofNat address >>> 8).toUInt8 = UInt8.ofNat (address / 256) := by
    apply UInt8.toNat_inj.mp
    simp only [UInt16.toNat_toUInt8, UInt16.toNat_shiftRight, UInt16.toNat_ofNat',
      UInt16.reduceToNat, Nat.reduceMod, Nat.shiftRight_eq_div_pow, UInt8.toNat_ofNat']
    omega
  have hlow : (UInt16.ofNat address).toUInt8 = UInt8.ofNat address := by
    apply UInt8.toNat_inj.mp
    simp only [UInt16.toNat_toUInt8, UInt16.toNat_ofNat', UInt8.toNat_ofNat']
    omega
  simp only [header, written, code_ofCode, hhigh, hlow]

theorem written_checksumOk (code : UInt8) (address : Nat) (payload : Bytes) :
    (written code address payload).checksumOk = true := by
  rw [checksumOk, expectedChecksum, written_header]
  exact beq_self_eq_true _

theorem parse_spelled {code : UInt8} {address : Nat} {payload field : Bytes}
    (hlen : payload.length < 256) (h : Spells field (bytes code address payload)) {line : Bytes}
    (hline : line.trimEnd = startCode :: field) :
    parse line = .ok (written code address payload) := by
  obtain ⟨counted, c, rfl, hcounted, hchecksum⟩ := h.append_inv
  obtain ⟨header, rest, rfl, hheader, hpayload⟩ := hcounted.append_inv
  have hlength : payload.length = (UInt8.ofNat payload.length).toNat := by
    rw [UInt8.toNat_ofNat', Nat.mod_eq_of_lt hlen]
  have hread := checksum?_spelled hchecksum []
  rw [List.append_nil] at hread
  rw [parse_of_trimEnd hline, List.append_assoc, ofBody_spelled hheader rfl,
    ofHeader_spelled hpayload _ (by simpa using hlength), hread]
  simp only [List.getD_cons_zero, List.getD_cons_succ, address_bytes, written]

theorem IsLine.head? {line bytes : Bytes} (h : IsLine line bytes) :
    line.head? = some startCode := by
  rcases h with ⟨field, _, rfl | rfl⟩ <;> rfl

theorem IsLine.trimEnd {line bytes : Bytes} (h : IsLine line bytes) (hbytes : bytes ≠ []) :
    ∃ field, Spells field bytes ∧ line.trimEnd = startCode :: field := by
  obtain ⟨field, hspells, hline⟩ := h
  refine ⟨field, hspells, ?_⟩
  rcases List.eq_nil_or_concat field with rfl | ⟨digits, last, rfl⟩
  · cases hspells
    exact absurd rfl hbytes
  · have hlast := hspells.not_blank last (by simp)
    rw [List.concat_eq_append] at hline ⊢
    rcases hline with rfl | rfl
    · exact Bytes.trimEnd_append (startCode :: digits) [] last hlast (by simp)
    · rw [List.append_assoc]
      exact Bytes.trimEnd_append (startCode :: digits) [13] last hlast (by simp; decide)

theorem IsLine.lineFeed {line bytes : Bytes} (h : IsLine line bytes) : Bytes.lineFeed ∉ line := by
  obtain ⟨field, hspells, hline⟩ := h
  have hfield : Bytes.lineFeed ∉ field := fun hmem => by
    have hblank := hspells.not_blank _ hmem
    exact absurd hblank (by decide)
  have hstart : Bytes.lineFeed ≠ startCode := by decide
  have hreturn : Bytes.lineFeed ≠ 13 := by decide
  rcases hline with rfl | rfl
  · simp [hfield, hstart]
  · simp [hfield, hstart, hreturn]

theorem IsLine.parse {line : Bytes} {code : UInt8} {address : Nat} {payload : Bytes}
    (h : IsLine line (bytes code address payload)) (hlen : payload.length < 256) :
    Record.parse line = .ok (written code address payload) := by
  obtain ⟨field, hspells, hline⟩ := h.trimEnd (by simp [bytes])
  exact parse_spelled hlen hspells hline

end HexBench.Record
