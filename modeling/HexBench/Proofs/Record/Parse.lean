import HexBench.Proofs.Text.Hex
import HexBench.Record.Parser

set_option autoImplicit false

namespace HexBench.Record

open Hex (Spells)

theorem address_toNat (high low : UInt8) :
    (high.toUInt16 <<< 8 ||| low.toUInt16).toNat = 256 * high.toNat + low.toNat := by
  have hhigh := high.toNat_lt
  have hlow : low.toNat < 2 ^ 8 := low.toNat_lt
  simp only [UInt16.toNat_or, UInt16.toNat_shiftLeft, UInt8.toNat_toUInt16, UInt16.reduceToNat,
    Nat.reduceMod, Nat.shiftLeft_eq]
  rw [Nat.mod_eq_of_lt (by omega), Nat.mul_comm, ← Nat.two_pow_add_eq_or_of_lt hlow]

theorem parse_of_trimEnd {line body : Bytes} (h : line.trimEnd = startCode :: body) :
    parse line = ofBody body := by
  rw [parse, h]
  exact if_pos rfl

theorem ofBody_spelled {field header : Bytes} (h : Spells field header) (hlen : header.length = 4)
    (s : Bytes) : ofBody (field ++ s) = ofHeader header s := by
  have hfield : field.length = 8 := by rw [h.length, hlen]
  rw [ofBody, if_neg (by rw [List.length_append, hfield]; omega), ← hfield, List.take_left,
    List.drop_left, h.decode]

theorem ofHeader_spelled {field payload : Bytes} (h : Spells field payload) (header : Bytes)
    (hlen : payload.length = (header.getD 0 0).toNat) (s : Bytes) :
    ofHeader header (field ++ s) = .ok {
      length := header.getD 0 0
      address := (header.getD 1 0).toUInt16 <<< 8 ||| (header.getD 2 0).toUInt16
      kind := .ofCode (header.getD 3 0)
      payload
      checksum := checksum? s } := by
  have hfield : 2 * (header.getD 0 0).toNat = field.length := by rw [h.length, hlen]
  simp only [ofHeader, hfield]
  rw [if_neg (by simp), List.take_left, List.drop_left, h.decode]

theorem checksum?_spelled {field : Bytes} {c : UInt8} (h : Spells field [c]) (s : Bytes) :
    checksum? (field ++ s) = some c := by
  cases h with
  | cons u v b tail =>
    cases tail
    have hc := c.toNat_lt
    have hhigh := Hex.digit?_digitChar u (c.toNat / 16) (by omega)
    have hlow := Hex.digit?_digitChar v (c.toNat % 16) (by omega)
    simp only [List.cons_append, checksum?, hhigh, hlow, Hex.byte_halves]

theorem payload_length_of_ofHeader {header s : Bytes} {r : Record} (h : ofHeader header s = .ok r) :
    r.payload.length = r.length.toNat := by
  simp only [ofHeader] at h
  split_ifs at h with hshort
  cases hdecode : Hex.decode (s.take (2 * (header.getD 0 0).toNat)) with
  | error e => simp only [hdecode] at h; cases h
  | ok payload =>
    simp only [hdecode, Except.ok.injEq] at h
    subst h
    have hlen := (Hex.decode_eq_ok_iff.mp hdecode).length
    rw [List.length_take] at hlen
    simp only
    omega

theorem payload_length_of_parse {line : Bytes} {r : Record} (h : parse line = .ok r) :
    r.payload.length = r.length.toNat := by
  unfold parse at h
  split at h
  · cases h
  · split_ifs at h with hstart
    unfold ofBody at h
    split_ifs at h with hshort
    split at h
    · cases h
    · exact payload_length_of_ofHeader h

end HexBench.Record
