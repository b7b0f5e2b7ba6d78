import HexBench.Proofs.Record.Grammar
import Mathlib.Data.UInt

set_option autoImplicit false

namespace HexBench.Record

open Hex (Spells)

def framed (r : Record) : Bytes := r.header ++ r.payload ++ [r.expectedChecksum]

theorem framed_length (r : Record) : r.framed.length = 5 + r.payload.length := by
  simp only [framed, header, List.length_append, List.length_cons, List.length_nil]
  omega

theorem sum_framed (r : Record) : r.framed.sum = 0 := by
  rw [framed, List.sum_append, List.sum_singleton, expectedChecksum, ← List.sum_eq_foldr]
  exact UInt8.add_right_neg _

theorem framed_of_parse {line : Bytes} {r : Record} (h : parse line = .ok r)
    (hok : r.checksumOk = true) :
    ∃ field rest, line = startCode :: (field ++ rest) ∧ Spells field r.framed := by
  obtain ⟨field, digits, hline, hfield, hchecksum⟩ := spells_of_parse h
  rw [checksumOk, beq_iff_eq, hchecksum] at hok
  obtain ⟨checksum, rest, rfl, hspells⟩ := spells_of_checksum? hok
  obtain ⟨blanks, hblanks⟩ := line.trimEnd_prefix
  refine ⟨field ++ checksum, rest ++ blanks, ?_, hfield.append hspells⟩
  rw [← hblanks, hline]
  simp only [List.cons_append, List.append_assoc]

/-- Two lines that differ in the two digits of one field, which spell a byte in the first line and
not that byte in the second. Field 0 is the length, which stays, and the last field the
checksum. -/
inductive Garbled (r : Record) : Bytes → Bytes → Prop where
  | intro {front back : Bytes} {high low high' low' : UInt8} (field : Nat)
      (hfront : front.length = 1 + 2 * field) (hfirst : 1 ≤ field)
      (hlast : field ≤ 4 + r.payload.length)
      (hother : ∀ b, Spells [high, low] [b] → ¬ Spells [high', low'] [b])
      (hhigh : high' ≠ Bytes.lineFeed) (hlow : low' ≠ Bytes.lineFeed) :
      Garbled r (front ++ high :: low :: back) (front ++ high' :: low' :: back)

theorem length_of_framed {r : Record} {field : Bytes} (h : Spells field r.framed) (rest : Bytes) :
    Spells ((field ++ rest).take 2) [r.length] := by
  have hframed : r.framed = [r.length] ++ r.framed.tail := rfl
  rw [hframed] at h
  obtain ⟨first, others, rfl, hfirst, _⟩ := h.append_inv
  have htwo : first.length = 2 := hfirst.length
  rwa [List.append_assoc, ← htwo, List.take_left]

theorem field_eq {u back field rest : Bytes} {high low : UInt8}
    (h : u ++ high :: low :: back = field ++ rest) (hlong : u.length + 2 ≤ field.length) :
    field = u ++ high :: low :: back.take (field.length - (u.length + 2)) := by
  obtain ⟨n, hn⟩ : ∃ n, field.length = u.length + 2 + n := ⟨_, (Nat.add_sub_cancel' hlong).symm⟩
  have htake := congrArg (List.take field.length) h
  rw [List.take_left, hn, Nat.add_assoc, List.take_length_add_append, Nat.add_comm 2] at htake
  rw [hn, Nat.add_sub_cancel_left]
  exact htake.symm

/-- A change of one field byte behind the length is seen by the checksum, if the line is still
read. -/
theorem checksumOk_of_garbled {line line' : Bytes} {r r' : Record} (h : parse line = .ok r)
    (hok : r.checksumOk = true) (hgarbled : Garbled r line line') (h' : parse line' = .ok r') :
    r'.checksumOk = false := by
  rw [← Bool.not_eq_true]
  intro hok'
  obtain ⟨field, rest, hline, hframed⟩ := framed_of_parse h hok
  obtain ⟨field', rest', hline', hframed'⟩ := framed_of_parse h' hok'
  cases hgarbled with
  | @intro front back high low high' low' i hfront hfirst hlast hother _ _ =>
    cases front with
    | nil => simp at hfront; omega
    | cons c u =>
      simp only [List.cons_append, List.cons.injEq, List.length_cons] at hline hline' hfront
      -- The length is spelled as before, so the second record has as many bytes as the first.
      have hlength : r'.length = r.length := by
        have hspells := length_of_framed hframed rest
        have hspells' := length_of_framed hframed' rest'
        rw [← hline.2, List.take_append_of_le_length (by omega)] at hspells
        rw [← hline'.2, List.take_append_of_le_length (by omega)] at hspells'
        exact List.head_eq_of_cons_eq (hspells'.unique hspells)
      have hfield := hframed.length
      have hfield' := hframed'.length
      rw [framed_length] at hfield hfield'
      rw [payload_length_of_parse h] at hfield hlast
      rw [payload_length_of_parse h', hlength] at hfield'
      have hdigits := field_eq hline.2 (by omega)
      have hdigits' := field_eq hline'.2 (by omega)
      rw [hfield'.trans hfield.symm] at hdigits'
      rw [hdigits] at hframed
      rw [hdigits'] at hframed'
      obtain ⟨xs, b, ys, hbytes, hxs, hb, hys⟩ := hframed.at_pair (by omega)
      obtain ⟨xs', b', ys', hbytes', hxs', hb', hys'⟩ := hframed'.at_pair (by omega)
      obtain rfl := hxs.unique hxs'
      obtain rfl := hys.unique hys'
      -- Both sums are zero, and all bytes but one are the same.
      have hsum := sum_framed r
      have hsum' := sum_framed r'
      rw [hbytes, List.sum_append, List.sum_cons] at hsum
      rw [hbytes', List.sum_append, List.sum_cons, ← hsum] at hsum'
      obtain rfl : b' = b := by
        rwa [UInt8.add_right_inj, UInt8.add_left_inj] at hsum'
      exact hother b' hb hb'

end HexBench.Record
