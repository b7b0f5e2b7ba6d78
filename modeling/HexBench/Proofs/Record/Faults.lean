import HexBench.Proofs.Record.Grammar

set_option autoImplicit false

namespace HexBench

namespace Hex

def IsDigit (c : UInt8) : Prop := ∃ upper, ∃ n < 16, c = digitChar upper n

theorem isDigit_iff {c : UInt8} : IsDigit c ↔ ∃ d, digit? c = some d := by
  constructor
  · rintro ⟨upper, n, hn, rfl⟩
    exact ⟨_, digit?_digitChar upper n hn⟩
  · rintro ⟨d, hd⟩
    obtain ⟨hsmall, upper, rfl⟩ := eq_digitChar_of_digit? hd
    exact ⟨upper, d.toNat, hsmall, rfl⟩

theorem not_isDigit_iff {c : UInt8} : ¬IsDigit c ↔ digit? c = none := by
  rw [isDigit_iff, not_exists, Option.eq_none_iff_forall_ne_some]

theorem Spells.isDigit {field bytes : Bytes} (h : Spells field bytes) : ∀ c ∈ field, IsDigit c := by
  induction h with
  | nil => exact List.forall_mem_nil _
  | cons u v b tail ih =>
    have hb := b.toNat_lt
    exact List.forall_mem_cons.mpr ⟨⟨u, b.toNat / 16, by omega, rfl⟩,
      List.forall_mem_cons.mpr ⟨⟨v, b.toNat % 16, by omega, rfl⟩, ih⟩⟩

/-- The byte of a field at the least position at which no digit stands. -/
structure FirstOther (field : Bytes) (c : UInt8) (position : Nat) : Prop where
  found : field[position]? = some c
  other : ¬IsDigit c
  before : ∀ b ∈ field.take position, IsDigit b

theorem FirstOther.not_lt {field : Bytes} {c c' : UInt8} {p p' : Nat} (h : FirstOther field c p)
    (h' : FirstOther field c' p') : ¬p < p' := by
  intro hlt
  have htaken : (field.take p')[p]? = some c := by rw [List.getElem?_take_of_lt hlt, h.found]
  exact h.other (h'.before c (List.mem_of_getElem? htaken))

theorem FirstOther.unique {field : Bytes} {c c' : UInt8} {p p' : Nat} (h : FirstOther field c p)
    (h' : FirstOther field c' p') : c = c' ∧ p = p' := by
  obtain rfl : p = p' := Nat.le_antisymm (Nat.not_lt.mp (h'.not_lt h)) (Nat.not_lt.mp (h.not_lt h'))
  exact ⟨Option.some.inj (h.found.symm.trans h'.found), rfl⟩

theorem FirstOther.cons {field : Bytes} {b c : UInt8} {position : Nat}
    (h : FirstOther field c position) (hb : IsDigit b) :
    FirstOther (b :: field) c (position + 1) :=
  ⟨h.found, h.other, List.forall_mem_cons.mpr ⟨hb, h.before⟩⟩

theorem firstOther_of_decodePairs {start : Nat} {field : Bytes} {e : DecodeError}
    (h : decodePairs start field = .error e) :
    ∃ c position, e = .badDigit c (start + position) ∧ FirstOther field c position := by
  fun_induction decodePairs start field with
  | case1 start high low rest hhigh =>
    cases h
    exact ⟨high, 0, rfl, rfl, not_isDigit_iff.mpr hhigh, List.forall_mem_nil _⟩
  | case2 start high low rest d hlow hhigh =>
    cases h
    exact ⟨low, 1, rfl, rfl, not_isDigit_iff.mpr hlow,
      List.forall_mem_singleton.mpr (isDigit_iff.mpr ⟨d, hhigh⟩)⟩
  | case3 start high low rest d d' hlow hhigh ih =>
    cases hrest : decodePairs (start + 2) rest with
    | ok bytes =>
      rw [hrest] at h
      cases h
    | error e' =>
      rw [hrest] at h
      cases h
      obtain ⟨c, position, rfl, hother⟩ := ih hrest
      refine ⟨c, position + 2, ?_, ?_⟩
      · rw [Nat.add_assoc, Nat.add_comm 2]
      · exact (hother.cons (isDigit_iff.mpr ⟨_, hlow⟩)).cons (isDigit_iff.mpr ⟨_, hhigh⟩)
  | case4 => cases h

theorem decode_eq_error_iff {field : Bytes} (heven : field.length % 2 = 0) {e : DecodeError} :
    decode field = .error e ↔
      ∃ c position, e = .badDigit c position ∧ FirstOther field c position := by
  have hpairs : decode field = decodePairs 0 field := if_neg (by omega)
  constructor
  · intro h
    rw [hpairs] at h
    obtain ⟨c, position, he, hother⟩ := firstOther_of_decodePairs h
    exact ⟨c, position, by rw [he, Nat.zero_add], hother⟩
  · rintro ⟨c, position, rfl, hother⟩
    cases hdecode : decode field with
    | ok bytes =>
      have hdigits := (decode_eq_ok_iff.mp hdecode).isDigit
      exact absurd (hdigits c (List.mem_of_getElem? hother.found)) hother.other
    | error e =>
      rw [hpairs] at hdecode
      obtain ⟨c', position', rfl, hother'⟩ := firstOther_of_decodePairs hdecode
      obtain ⟨rfl, rfl⟩ := hother.unique hother'
      rw [Nat.zero_add]

end Hex

namespace Record

open Hex (Spells FirstOther)

/-- The faults of a line without the blanks at its end. Each of them has room only where those in
front of it are not. -/
inductive FirstFault : Bytes → ParseError → Prop where
  | noStartCode {line : Bytes} (hstart : line.head? ≠ some startCode) :
      FirstFault line .noStartCode
  | shortHeader {body : Bytes} (hshort : body.length < 8) :
      FirstFault (startCode :: body) (.shortHeader body.length)
  | header {field rest : Bytes} {c : UInt8} {position : Nat} (hlength : field.length = 8)
      (hother : FirstOther field c position) :
      FirstFault (startCode :: (field ++ rest)) (.header (.badDigit c position))
  | shortPayload {header rest : Bytes} {length high low code : UInt8}
      (hheader : Spells header [length, high, low, code])
      (hshort : rest.length < 2 * length.toNat) :
      FirstFault (startCode :: (header ++ rest)) (.shortPayload length rest.length)
  | payload {header field rest : Bytes} {length high low code c : UInt8} {position : Nat}
      (hheader : Spells header [length, high, low, code])
      (hlength : field.length = 2 * length.toNat) (hother : FirstOther field c position) :
      FirstFault (startCode :: (header ++ (field ++ rest))) (.payload (.badDigit c position))

theorem ofHeader_eq_error_iff {length high low code : UInt8} {s : Bytes} {e : ParseError} :
    ofHeader [length, high, low, code] s = .error e ↔
      (s.length < 2 * length.toNat ∧ e = .shortPayload length s.length) ∨
      (2 * length.toNat ≤ s.length ∧ ∃ c position, e = .payload (.badDigit c position) ∧
        FirstOther (s.take (2 * length.toNat)) c position) := by
  simp only [ofHeader, List.getD_cons_zero]
  by_cases hshort : s.length < 2 * length.toNat
  · rw [if_pos hshort]
    constructor
    · intro h
      exact .inl ⟨hshort, (Except.error.inj h).symm⟩
    · rintro (⟨_, rfl⟩ | ⟨hlong, _⟩)
      · rfl
      · omega
  · have heven : (s.take (2 * length.toNat)).length % 2 = 0 := by
      rw [List.length_take]
      omega
    rw [if_neg hshort]
    constructor
    · intro h
      cases hdecode : Hex.decode (s.take (2 * length.toNat)) with
      | ok payload =>
        rw [hdecode] at h
        cases h
      | error e' =>
        rw [hdecode] at h
        cases h
        obtain ⟨c, position, rfl, hother⟩ := (Hex.decode_eq_error_iff heven).mp hdecode
        exact .inr ⟨by omega, c, position, rfl, hother⟩
    · rintro (⟨hlt, _⟩ | ⟨_, c, position, rfl, hother⟩)
      · omega
      · rw [(Hex.decode_eq_error_iff heven).mpr ⟨c, position, rfl, hother⟩]

theorem firstFault_of_ofBody {body : Bytes} {e : ParseError} (h : ofBody body = .error e) :
    FirstFault (startCode :: body) e := by
  rw [ofBody] at h
  split_ifs at h with hshort
  · cases h
    exact .shortHeader hshort
  · have hlength : (body.take 8).length = 8 := by
      rw [List.length_take]
      omega
    have hsplit := List.take_append_drop 8 body
    cases hdecode : Hex.decode (body.take 8) with
    | error e' =>
      rw [hdecode] at h
      cases h
      obtain ⟨c, position, rfl, hother⟩ :=
        (Hex.decode_eq_error_iff (by rw [hlength])).mp hdecode
      have hfault : FirstFault (startCode :: (body.take 8 ++ body.drop 8)) _ :=
        .header hlength hother
      rwa [hsplit] at hfault
    | ok header =>
      have hspells := Hex.decode_eq_ok_iff.mp hdecode
      have hfour := hspells.length
      rw [hdecode] at h
      obtain ⟨length, high, low, code, rfl⟩ :=
        List.length_eq_four.mp (show header.length = 4 by omega)
      rcases ofHeader_eq_error_iff.mp h with ⟨hrest, rfl⟩ | ⟨hlong, c, position, rfl, hother⟩
      · have hfault := FirstFault.shortPayload hspells hrest
        rwa [hsplit] at hfault
      · have hdigits : ((body.drop 8).take (2 * length.toNat)).length = 2 * length.toNat := by
          rw [List.length_take]
          omega
        have hfault : FirstFault (startCode :: (body.take 8 ++ ((body.drop 8).take
            (2 * length.toNat) ++ (body.drop 8).drop (2 * length.toNat)))) _ :=
          .payload hspells hdigits hother
        rwa [List.take_append_drop, hsplit] at hfault

theorem FirstFault.parse {line : Bytes} {e : ParseError} (h : FirstFault line.trimEnd e) :
    Record.parse line = .error e := by
  generalize hline : line.trimEnd = t at h
  cases h with
  | noStartCode hstart =>
    rw [Record.parse, hline]
    cases t with
    | nil => rfl
    | cons c body => exact if_neg fun hc => hstart (congrArg some hc)
  | shortHeader hshort => rw [parse_of_trimEnd hline, ofBody, if_pos hshort]
  | header hlength hother =>
    rw [parse_of_trimEnd hline, ofBody, if_neg (by rw [List.length_append]; omega), ← hlength,
      List.take_left, (Hex.decode_eq_error_iff (by rw [hlength])).mpr ⟨_, _, rfl, hother⟩]
  | shortPayload hheader hshort =>
    rw [parse_of_trimEnd hline, ofBody_spelled hheader rfl]
    exact ofHeader_eq_error_iff.mpr (.inl ⟨hshort, rfl⟩)
  | payload hheader hlength hother =>
    rw [parse_of_trimEnd hline, ofBody_spelled hheader rfl]
    refine ofHeader_eq_error_iff.mpr (.inr ⟨?_, _, _, rfl, ?_⟩)
    · rw [List.length_append]
      omega
    · rwa [← hlength, List.take_left]

/-- The error of a line that is refused names its first fault. -/
theorem parse_eq_error_iff {line : Bytes} {e : ParseError} :
    parse line = .error e ↔ FirstFault line.trimEnd e := by
  refine ⟨fun h => ?_, FirstFault.parse⟩
  rw [parse] at h
  cases hline : line.trimEnd with
  | nil =>
    rw [hline] at h
    cases h
    exact .noStartCode (by simp)
  | cons c body =>
    simp only [hline] at h
    split_ifs at h with hstart
    · rw [hstart]
      exact firstFault_of_ofBody h
    · cases h
      exact .noStartCode fun hc => hstart (Option.some.inj hc)

end Record
end HexBench
