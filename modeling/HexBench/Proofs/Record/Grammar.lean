import HexBench.Proofs.Record.Encoding
import Mathlib.Data.List.Basic

set_option autoImplicit false

/-!
# The grammar of a record line

What a line has to look like to be read as a record, said by its fields, and what the record then
is. No other line is read, and any spelling of a record is read as that record. A second reading,
by positions in the line, keeps every slice and every index in range.
-/

namespace HexBench

def Bytes.slice? (s : Bytes) (start stop : Nat) : Option Bytes :=
  if start ≤ stop ∧ stop ≤ s.length then some ((s.take stop).drop start) else none

theorem Bytes.slice?_eq {s : Bytes} {start stop : Nat} (h : start ≤ stop) (h' : stop ≤ s.length) :
    s.slice? start stop = some ((s.drop start).take (stop - start)) := by
  rw [slice?, if_pos ⟨h, h'⟩, List.drop_take]

namespace Record

open Hex (Spells)

theorem address_halves (high low : UInt8) :
    ((high.toUInt16 <<< 8 ||| low.toUInt16) >>> 8).toUInt8 = high ∧
      (high.toUInt16 <<< 8 ||| low.toUInt16).toUInt8 = low := by
  have hhigh := high.toNat_lt
  have hlow := low.toNat_lt
  have haddress := address_toNat high low
  constructor
  · apply UInt8.toNat_inj.mp
    simp only [UInt16.toNat_toUInt8, UInt16.toNat_shiftRight, haddress, UInt16.reduceToNat,
      Nat.reduceMod, Nat.shiftRight_eq_div_pow]
    omega
  · apply UInt8.toNat_inj.mp
    simp only [UInt16.toNat_toUInt8, haddress]
    omega

theorem address_of_halves (address : UInt16) :
    (address >>> 8).toUInt8.toUInt16 <<< 8 ||| address.toUInt8.toUInt16 = address := by
  have haddress := address.toNat_lt
  apply UInt16.toNat_inj.mp
  rw [address_toNat]
  simp only [UInt16.toNat_toUInt8, UInt16.toNat_shiftRight, UInt16.reduceToNat, Nat.reduceMod,
    Nat.shiftRight_eq_div_pow]
  omega

theorem spells_of_ofHeader {header s : Bytes} {r : Record} (hlen : header.length = 4)
    (h : ofHeader header s = .ok r) : ∃ field rest, s = field ++ rest ∧ Spells field r.payload ∧
      r.header = header ∧ r.checksum = checksum? rest := by
  obtain ⟨length, high, low, code, rfl⟩ := List.length_eq_four.mp hlen
  simp only [ofHeader] at h
  split_ifs at h with hshort
  cases hdecode : Hex.decode (s.take (2 * length.toNat)) with
  | error e =>
    simp only [List.getD_cons_zero, hdecode] at h
    cases h
  | ok payload =>
    simp only [List.getD_cons_zero, hdecode, Except.ok.injEq] at h
    subst h
    refine ⟨_, _, (List.take_append_drop (2 * length.toNat) s).symm,
      Hex.decode_eq_ok_iff.mp hdecode, ?_, rfl⟩
    obtain ⟨hhigh, hlow⟩ := address_halves high low
    simp only [Record.header, List.getD_cons_zero, List.getD_cons_succ, hhigh, hlow,
      code_ofCode]

theorem spells_of_parse {line : Bytes} {r : Record} (h : parse line = .ok r) :
    ∃ field rest, line.trimEnd = startCode :: (field ++ rest) ∧
      Spells field (r.header ++ r.payload) ∧ r.checksum = checksum? rest := by
  unfold parse at h
  split at h
  · cases h
  · rename_i c body hline
    split_ifs at h with hstart
    unfold ofBody at h
    split_ifs at h with hshort
    split at h
    · cases h
    · rename_i header hdecode
      have hspells := Hex.decode_eq_ok_iff.mp hdecode
      have hlen := hspells.length
      rw [List.length_take] at hlen
      obtain ⟨field, rest, hbody, hfield, hheader, hchecksum⟩ :=
        spells_of_ofHeader (by omega) h
      refine ⟨body.take 8 ++ field, rest, ?_, hheader ▸ hspells.append hfield, hchecksum⟩
      rw [hline, hstart, List.append_assoc, ← hbody, List.take_append_drop]

theorem spells_of_checksum? {s : Bytes} {c : UInt8} (h : checksum? s = some c) :
    ∃ field rest, s = field ++ rest ∧ Spells field [c] := by
  match s with
  | [] | [_] => cases h
  | high :: low :: rest =>
    simp only [checksum?] at h
    split at h
    · rename_i hi lo hhigh hlow
      obtain rfl := Option.some.inj h
      exact ⟨[high, low], rest, rfl, .pair hhigh hlow .nil⟩
    · cases h

theorem checksum?_eq_some_iff {s : Bytes} {c : UInt8} :
    checksum? s = some c ↔ ∃ field rest, s = field ++ rest ∧ Spells field [c] := by
  constructor
  · exact spells_of_checksum?
  · rintro ⟨field, rest, rfl, hfield⟩
    exact checksum?_spelled hfield rest

/-- A line cut into its fields. Behind the colon stand the digits of a header of four bytes, two
digits for each byte of the payload, whose number the header begins with, and anything more. Blanks
at the end of the line do not count. -/
inductive Fields (line : Bytes) (length high low code : UInt8) (payload rest : Bytes) : Prop where
  | intro {header digits : Bytes} (hline : line.trimEnd = startCode :: (header ++ digits ++ rest))
      (hheader : Spells header [length, high, low, code]) (hdigits : Spells digits payload)
      (hlength : payload.length = length.toNat)

theorem Fields.parse {line payload rest : Bytes} {length high low code : UInt8}
    (h : Fields line length high low code payload rest) : Record.parse line = .ok {
      length
      address := high.toUInt16 <<< 8 ||| low.toUInt16
      kind := .ofCode code
      payload
      checksum := checksum? rest } := by
  obtain ⟨hline, hheader, hdigits, hlength⟩ := h
  rw [parse_of_trimEnd hline, List.append_assoc, ofBody_spelled hheader rfl,
    ofHeader_spelled hdigits [length, high, low, code] hlength]
  rfl

theorem fields_of_parse {line : Bytes} {r : Record} (h : parse line = .ok r) :
    ∃ high low rest, Fields line r.length high low r.kind.code r.payload rest := by
  obtain ⟨field, rest, hline, hfield, _⟩ := spells_of_parse h
  obtain ⟨header, digits, rfl, hheader, hdigits⟩ := hfield.append_inv
  exact ⟨_, _, rest, hline, hheader, hdigits, payload_length_of_parse h⟩

/-- The spellings of a record: its bytes in digits of either case behind the colon, the checksum at
their end, and then anything more, with blanks behind it. -/
inductive Renders (r : Record) : Bytes → Prop where
  | intro {checksum : UInt8} {digits more blanks : Bytes} (hchecksum : r.checksum = some checksum)
      (hdigits : Spells digits (r.header ++ r.payload ++ [checksum]))
      (hblanks : ∀ b ∈ blanks, Bytes.isBlank b = true) :
      Renders r (startCode :: (digits ++ more ++ blanks))

theorem trimEnd_digits {digits bytes : Bytes} (h : Spells digits bytes) (hne : digits ≠ [])
    (more : Bytes) : Bytes.trimEnd (startCode :: (digits ++ more)) =
      startCode :: (digits ++ more.trimEnd) := by
  rcases List.eq_nil_or_concat digits with rfl | ⟨front, last, rfl⟩
  · exact absurd rfl hne
  · have hlast := h.not_blank last (by simp)
    rw [List.concat_eq_append, List.append_assoc, List.append_assoc]
    exact Bytes.trimEnd_append_cons (startCode :: front) more hlast

theorem Renders.fields {r : Record} {line : Bytes} (h : Renders r line)
    (hlength : r.payload.length = r.length.toNat) :
    ∃ rest, Fields line r.length (r.address >>> 8).toUInt8 r.address.toUInt8 r.kind.code r.payload
      rest ∧ checksum? rest = r.checksum := by
  obtain ⟨hchecksum, hdigits, hblanks⟩ := h
  rename_i checksum digits more blanks
  have htrim : Bytes.trimEnd (startCode :: (digits ++ more ++ blanks)) =
      startCode :: (digits ++ more.trimEnd) := by
    have hne : digits ≠ [] := by
      rintro rfl
      cases hdigits
    rw [List.append_assoc, trimEnd_digits hdigits hne, Bytes.trimEnd_append_blanks more hblanks]
  obtain ⟨front, last, rfl, hfront, hlast⟩ := hdigits.append_inv
  obtain ⟨header, payload, rfl, hheader, hpayload⟩ := hfront.append_inv
  refine ⟨last ++ more.trimEnd, ⟨?_, hheader, hpayload, hlength⟩, ?_⟩
  · rw [htrim, List.append_assoc]
  · rw [hchecksum, checksum?_spelled hlast]

theorem Renders.parse {r : Record} {line : Bytes} (h : Renders r line)
    (hlength : r.payload.length = r.length.toNat) {code : UInt8} (hkind : r.kind = .ofCode code) :
    Record.parse line = .ok r := by
  obtain ⟨rest, hfields, hchecksum⟩ := h.fields hlength
  have hcode : RecordKind.ofCode r.kind.code = r.kind := by rw [hkind, code_ofCode]
  rw [hfields.parse, address_of_halves, hcode, hchecksum]

section Positions

/-! The same reading by positions. A result of `none` means that a slice or an index is out of
range. Only the checksum is asked for without knowing that it is there. -/

def checksumAt (body : Bytes) (start : Nat) : Option (Option UInt8) :=
  match body.slice? start (start + 2) with
  | none => some none
  | some field =>
    match Hex.decode field with
    | .error _ => some none
    | .ok bytes => bytes[0]?.map some

def payloadAt (body : Bytes) (length high low code : UInt8) :
    Option (Except ParseError Record) :=
  let stop := (4 + length.toNat) * 2
  if body.length < stop then some (.error (.shortPayload length (body.length - 8)))
  else
    match body.slice? 8 stop with
    | none => none
    | some field =>
      match Hex.decode field with
      | .error e => some (.error (.payload e))
      | .ok payload =>
        (checksumAt body stop).map fun checksum =>
          .ok {
            length
            address := high.toUInt16 <<< 8 ||| low.toUInt16
            kind := .ofCode code
            payload
            checksum }

def headerAt (body : Bytes) : Option (Except ParseError Record) :=
  if body.length < 8 then some (.error (.shortHeader body.length))
  else
    match body.slice? 0 8 with
    | none => none
    | some field =>
      match Hex.decode field with
      | .error e => some (.error (.header e))
      | .ok header =>
        match header[0]?, header[1]?, header[2]?, header[3]? with
        | some length, some high, some low, some code => payloadAt body length high low code
        | _, _, _, _ => none

def parseAt (line : Bytes) : Option (Except ParseError Record) :=
  match line.trimEnd with
  | [] => some (.error .noStartCode)
  | c :: body => if c = startCode then headerAt body else some (.error .noStartCode)

theorem checksumAt_eq {body : Bytes} {start : Nat} (h : start ≤ body.length) :
    checksumAt body start = some (checksum? (body.drop start)) := by
  by_cases hthere : start + 2 ≤ body.length
  · have hlen : (body.drop start).length = body.length - start := List.length_drop
    rw [checksumAt, Bytes.slice?_eq (Nat.le_add_right _ _) hthere, Nat.add_sub_cancel_left]
    match hrest : body.drop start with
    | [] | [_] => simp [hrest] at hlen; omega
    | high :: low :: rest =>
      simp only [List.take_succ_cons, List.take_zero, Hex.decode, List.length_cons,
        List.length_nil, Nat.reduceAdd, Nat.reduceMod, Nat.zero_ne_one, if_false,
        Hex.decodePairs, checksum?]
      cases Hex.digit? high with
      | none => rfl
      | some h =>
        cases Hex.digit? low with
        | none => rfl
        | some l => rfl
  · have hlen : (body.drop start).length < 2 := by
      rw [List.length_drop]
      omega
    rw [checksumAt, Bytes.slice?, if_neg (by omega)]
    match hrest : body.drop start with
    | [] | [_] => rfl
    | high :: low :: rest =>
      simp only [hrest, List.length_cons] at hlen
      omega

theorem payloadAt_eq {body : Bytes} (h : 8 ≤ body.length) (length high low code : UInt8) :
    payloadAt body length high low code =
      some (ofHeader [length, high, low, code] (body.drop 8)) := by
  have hlen : (body.drop 8).length = body.length - 8 := List.length_drop
  have hdigits : (4 + length.toNat) * 2 - 8 = 2 * length.toNat := by omega
  have hrest : (body.drop 8).drop (2 * length.toNat) = body.drop ((4 + length.toNat) * 2) := by
    rw [List.drop_drop]
    congr 1
    omega
  simp only [payloadAt, ofHeader, List.getD_cons_zero, List.getD_cons_succ, hlen]
  by_cases hshort : body.length < (4 + length.toNat) * 2
  · rw [if_pos hshort, if_pos (by omega)]
  · rw [if_neg hshort, if_neg (by omega), Bytes.slice?_eq (by omega) (by omega), hdigits, hrest,
      checksumAt_eq (by omega)]
    cases hdecode : Hex.decode ((body.drop 8).take (2 * length.toNat)) <;>
      simp only [hdecode, Option.map_some]

theorem headerAt_eq (body : Bytes) : headerAt body = some (ofBody body) := by
  rw [headerAt, ofBody]
  split
  · rfl
  · rename_i hlong
    rw [Bytes.slice?_eq (by omega) (by omega)]
    cases hdecode : Hex.decode (body.take 8) with
    | error e => simp only [List.drop_zero, Nat.sub_zero, hdecode]
    | ok header =>
      have hlen := (Hex.decode_eq_ok_iff.mp hdecode).length
      rw [List.length_take] at hlen
      simp only [List.drop_zero, Nat.sub_zero, hdecode]
      obtain ⟨length, high, low, code, rfl⟩ :=
        List.length_eq_four.mp (show header.length = 4 by omega)
      exact payloadAt_eq (by omega) length high low code

/-- Reading by positions never leaves the line, and comes to the same. -/
theorem parseAt_eq (line : Bytes) : parseAt line = some (parse line) := by
  rw [parseAt, parse]
  cases line.trimEnd with
  | nil => rfl
  | cons c body =>
    simp only
    split
    · exact headerAt_eq body
    · rfl

end Positions

/-- A line is read if and only if it has the fields of a record. The record then holds what the
fields spell; its payload has the length that the header announces, and its checksum is the byte
that the rest begins with, if that is spelled. No position outside the line is ever looked at, and
a record is read back from all its spellings. -/
theorem parse_ok_iff_fields :
    (∀ line, (∃ r, parse line = .ok r) ↔
      ∃ length high low code payload rest, Fields line length high low code payload rest) ∧
    (∀ line length high low code payload rest,
      Fields line length high low code payload rest → ∃ r, parse line = .ok r ∧
        r.length = length ∧ r.address.toNat = 256 * high.toNat + low.toNat ∧
        r.kind = .ofCode code ∧ r.kind.code = code ∧ r.payload = payload ∧
        ∀ c, r.checksum = some c ↔ ∃ digits more, rest = digits ++ more ∧ Spells digits [c]) ∧
    (∀ line r, parse line = .ok r → r.payload.length = r.length.toNat) ∧
    (∀ line, parseAt line = some (parse line)) ∧
    ∀ r line, Renders r line → r.payload.length = r.length.toNat →
      ∀ code, r.kind = .ofCode code → parse line = .ok r := by
  refine ⟨fun line => ⟨?_, ?_⟩, ?_, fun line r => payload_length_of_parse, parseAt_eq,
    fun r line h hlength code hkind => h.parse hlength hkind⟩
  · rintro ⟨r, hr⟩
    obtain ⟨high, low, rest, hfields⟩ := fields_of_parse hr
    exact ⟨_, high, low, _, _, rest, hfields⟩
  · rintro ⟨length, high, low, code, payload, rest, hfields⟩
    exact ⟨_, hfields.parse⟩
  · intro line length high low code payload rest hfields
    exact ⟨_, hfields.parse, rfl, address_toNat high low, rfl, code_ofCode code, rfl,
      fun c => checksum?_eq_some_iff⟩

/-- The digits are in both cases, and a full stop and blanks follow the checksum. -/
theorem parse_ok_iff_fields_mixed_case :
    let line := Bytes.ofString ":0300300002337a1E. \r"
    let r : Record := ⟨3, 0x30, .data, [0x02, 0x33, 0x7A], some 0x1E⟩
    (∃ rest, Fields line 3 0 0x30 0 [0x02, 0x33, 0x7A] rest) ∧ Renders r line ∧
      (∃ r', parse line = .ok r' ∧ r'.address.toNat = 0x30) ∧ parse line = .ok r ∧
      r.payload.length = r.length.toNat ∧ parseAt line = some (.ok r) := by
  intro line r
  obtain ⟨hread, hholds, hlength, hpositions, hrendered⟩ := parse_ok_iff_fields
  have hbytes : r.header ++ r.payload ++ [0x1E] = [3, 0, 0x30, 0, 2, 0x33, 0x7A, 0x1E] := by decide
  have hdigits : Spells (Bytes.ofString "0300300002337a1E") (r.header ++ r.payload ++ [0x1E]) := by
    rw [hbytes]
    exact Hex.decode_eq_ok_iff.mp rfl
  have hrenders : Renders r line :=
    @Renders.intro r 0x1E _ [46] [32, 13] rfl hdigits (by decide +kernel)
  have hparse : parse line = .ok r := hrendered r line hrenders rfl 0 rfl
  obtain ⟨rest, hfields, _⟩ := hrenders.fields rfl
  have hhigh : (r.address >>> 8).toUInt8 = 0 := by decide
  have hlow : r.address.toUInt8 = 0x30 := by decide
  rw [hhigh, hlow] at hfields
  obtain ⟨r', hparse', _, haddress, _⟩ := hholds line 3 0 0x30 0 _ rest hfields
  exact ⟨⟨rest, hfields⟩, hrenders, ⟨r', hparse', haddress⟩, hparse, hlength line r hparse,
    (hpositions line).trans (congrArg some hparse)⟩

end Record
end HexBench
