import HexBench.Proofs.Image.Run
import HexBench.Proofs.Text.Lines

set_option autoImplicit false

namespace HexBench

def Record.readsAs (asked : Record → Bool) (line : Bytes) : Bool :=
  match parse line with
  | .ok r => asked r
  | .error _ => false

theorem Record.readsAs_iff {asked : Record → Bool} {line : Bytes} :
    readsAs asked line = true ↔ ∃ r, parse line = .ok r ∧ asked r = true := by
  cases hparse : parse line with
  | ok r => simp [readsAs, hparse]
  | error e => simp [readsAs, hparse]

theorem Record.startCode_head?_of_parse {line : Bytes} {r : Record} (h : parse line = .ok r) :
    line.head? = some startCode := by
  rw [parse] at h
  split at h
  · cases h
  · rename_i c body hline
    split_ifs at h with hstart
    obtain ⟨blanks, hblanks⟩ := line.trimEnd_prefix
    rw [← hblanks, hline, hstart]
    rfl

def RecordKind.isAddress (kind : RecordKind) : Bool :=
  kind = .extendedSegmentAddress ∨ kind = .extendedLinearAddress

def RecordKind.isExtended (kind : RecordKind) : Bool := kind = .endOfFile ∨ kind.isAddress

namespace Image

def Options.accepts (o : Options) (r : Record) : Bool := !o.verifyChecksum || r.checksumOk

def Options.heeds (o : Options) (kind : RecordKind) : Bool :=
  kind = .data ∨ (o.extendedRecords ∧ kind.isExtended)

open Record (startCode readsAs)

def isEnd (o : Options) : Bytes → Bool :=
  readsAs fun r => o.accepts r ∧ o.extendedRecords ∧ r.kind = .endOfFile

theorem isEnd_of_plain {o : Options} (h : o.extendedRecords = false) (line : Bytes) :
    isEnd o line = false := by
  cases hparse : Record.parse line <;> simp [isEnd, readsAs, hparse, h]

def isSkipped (o : Options) : Bytes → Bool := readsAs fun r => o.accepts r ∧ !o.heeds r.kind

/-- A record whose checksum fails, or an address record whose payload is not two bytes. -/
def isRefused (o : Options) : Bytes → Bool :=
  readsAs fun r => !o.accepts r ∨ (o.extendedRecords ∧ r.kind.isAddress ∧ r.payload.length ≠ 2)

/-- A line that starts as a record and is none, or holds one that is refused. -/
def isMalformed (o : Options) (line : Bytes) : Bool :=
  (line.head? = some startCode ∧ !readsAs (fun _ => true) line) ∨ isRefused o line

/-- A line that has no say in what becomes of the memory. -/
def isUnapplied (o : Options) (line : Bytes) : Bool :=
  line.head? ≠ some startCode ∨ isMalformed o line ∨ isSkipped o line

theorem upperAddress?_isSome (r : Record) :
    r.upperAddress?.isSome = decide (r.payload.length = 2) := by
  rw [Record.upperAddress?]
  split
  · rename_i hpayload
    rw [hpayload]
    rfl
  · rename_i hother
    refine (decide_eq_false fun hlength => ?_).symm
    match hpayload : r.payload, hlength with
    | [high, low], _ => exact hother high low hpayload

namespace Verdict

theorem ofLine_of_parse (o : Options) {line : Bytes} {r : Record} (h : Record.parse line = .ok r) :
    ofLine o line = ofRecord o r := by
  rw [ofLine, if_pos (Record.startCode_head?_of_parse h), h]

theorem ofLine_of_error (o : Options) {line : Bytes} {e : Record.ParseError}
    (hstart : line.head? = some startCode) (h : Record.parse line = .error e) :
    ofLine o line = malformed e := by
  rw [ofLine, if_pos hstart, h]

theorem ofLine_of_other (o : Options) {line : Bytes} (hstart : line.head? ≠ some startCode) :
    ofLine o line = comment := if_neg hstart

/-- What a verdict does beside the words that it puts. -/
structure HasRoles (v : Verdict) (ends ignored fault : Bool) : Prop where
  stops : v.stops = ends
  isIgnored : v.isIgnored = ignored
  isFault : v.isFault = fault

theorem ofAddress_roles (r : Record) (shift : UInt64) :
    (ofAddress r shift).HasRoles false false (decide (r.payload.length ≠ 2)) := by
  have hsome := upperAddress?_isSome r
  rw [ofAddress]
  cases hvalue : r.upperAddress? with
  | some value =>
    rw [hvalue] at hsome
    have hlength := of_decide_eq_true hsome.symm
    exact ⟨rfl, rfl, (decide_eq_false (not_not_intro hlength)).symm⟩
  | none =>
    rw [hvalue] at hsome
    have hlength := of_decide_eq_false hsome.symm
    exact ⟨rfl, rfl, (decide_eq_true hlength).symm⟩

theorem ofKind_roles (o : Options) (r : Record) :
    (ofKind o r).HasRoles (decide (o.extendedRecords ∧ r.kind = .endOfFile)) (!o.heeds r.kind)
      (decide (o.extendedRecords ∧ r.kind.isAddress ∧ r.payload.length ≠ 2)) := by
  have hsegment := ofAddress_roles r 4
  have hlinear := ofAddress_roles r 16
  rw [ofKind, Options.heeds]
  cases o.extendedRecords with
  | false => cases r.kind <;> exact ⟨rfl, rfl, rfl⟩
  | true =>
    cases r.kind with
    | extendedSegmentAddress => simpa [RecordKind.isExtended, RecordKind.isAddress] using hsegment
    | extendedLinearAddress => simpa [RecordKind.isExtended, RecordKind.isAddress] using hlinear
    | _ => exact ⟨rfl, rfl, rfl⟩

theorem ofRecord_eq (o : Options) (r : Record) :
    ofRecord o r = if o.accepts r then ofKind o r
      else checksumMismatch r.expectedChecksum r.checksum := by
  rw [ofRecord, Options.accepts]
  cases o.verifyChecksum <;> cases r.checksumOk <;> rfl

theorem ofLine_roles (o : Options) (line : Bytes) :
    (ofLine o line).HasRoles (isEnd o line) (isSkipped o line) (isMalformed o line) := by
  cases hparse : Record.parse line with
  | ok r =>
    have hkind := ofKind_roles o r
    rw [ofLine_of_parse o hparse, ofRecord_eq]
    cases haccepts : o.accepts r with
    | true =>
      simpa [isEnd, isSkipped, isMalformed, isRefused, readsAs, hparse, haccepts] using hkind
    | false =>
      constructor <;> simp [isEnd, isSkipped, isMalformed, isRefused, readsAs, hparse, haccepts,
        stops, isIgnored, isFault]
  | error e =>
    by_cases hstart : line.head? = some startCode
    · rw [ofLine_of_error o hstart hparse]
      constructor <;> simp [isEnd, isSkipped, isMalformed, readsAs, hparse, hstart, stops,
        isIgnored, isFault]
    · rw [ofLine_of_other o hstart]
      constructor <;> simp [isEnd, isSkipped, isMalformed, isRefused, readsAs, hparse, hstart,
        stops, isIgnored, isFault]

theorem stops_ofLine (o : Options) (line : Bytes) : (ofLine o line).stops = isEnd o line :=
  (ofLine_roles o line).stops

theorem isIgnored_ofLine (o : Options) (line : Bytes) :
    (ofLine o line).isIgnored = isSkipped o line :=
  (ofLine_roles o line).isIgnored

theorem isFault_ofLine (o : Options) (line : Bytes) :
    (ofLine o line).isFault = isMalformed o line :=
  (ofLine_roles o line).isFault

/-- The verdict leaves the memory and the base as they are, and ends nothing. -/
structure Inert (v : Verdict) : Prop where
  stops : v.stops = false
  places : ∀ current, v.places current = []
  nextBase : ∀ current, v.nextBase current = current

theorem Inert.of_isFault {v : Verdict} (h : v.isFault = true) : v.Inert := by
  cases v with
  | data r => cases h
  | endOfFile => cases h
  | base address => cases h
  | _ => exact ⟨rfl, fun _ => rfl, fun _ => rfl⟩

theorem Inert.of_isIgnored {v : Verdict} (h : v.isIgnored = true) : v.Inert := by
  cases v with
  | ignored kind => exact ⟨rfl, fun _ => rfl, fun _ => rfl⟩
  | _ => cases h

theorem isIgnored_of_isFault {v : Verdict} (h : v.isFault = true) : v.isIgnored = false := by
  cases v with
  | ignored kind => cases h
  | _ => rfl

theorem inert_ofLine {o : Options} {line : Bytes} (h : isUnapplied o line = true) :
    (ofLine o line).Inert := by
  rcases of_decide_eq_true h with hother | hmalformed | hskipped
  · rw [ofLine_of_other o hother]
    exact ⟨rfl, fun _ => rfl, fun _ => rfl⟩
  · exact .of_isFault ((isFault_ofLine o line).trans hmalformed)
  · exact .of_isIgnored ((isIgnored_ofLine o line).trans hskipped)

end Verdict
end Image
end HexBench
