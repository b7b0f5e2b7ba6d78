import HexBench.Proofs.Image.Delivered
import HexBench.Proofs.Record.Faults

set_option autoImplicit false

namespace HexBench

def Record.rejection? (line : Bytes) : Option ParseError :=
  if line.head? = some startCode then
    match parse line with
    | .ok _ => none
    | .error e => some e
  else none

theorem Record.rejection?_of_parse {line : Bytes} {r : Record} (h : parse line = .ok r) :
    rejection? line = none := by
  simp only [rejection?, h, ite_self]

theorem Record.rejection?_of_error {line : Bytes} {e : ParseError}
    (hstart : line.head? = some startCode) (h : parse line = .error e) :
    rejection? line = some e := by
  rw [rejection?, if_pos hstart, h]

namespace Image

/-- The lines that a load comes to: none behind the end-of-file record that stops it. -/
def reached (o : Options) : List Bytes → List Bytes
  | [] => []
  | line :: rest => line :: if isEnd o line then [] else reached o rest

theorem reached_prefix_lines (o : Options) (lines : List Bytes) : reached o lines <+: lines := by
  induction lines with
  | nil => exact List.prefix_refl []
  | cons line rest ih =>
    rw [reached, List.cons_prefix_cons]
    refine ⟨rfl, ?_⟩
    split
    · exact List.nil_prefix
    · exact ih

theorem verdicts_eq_map_reached (o : Options) (lines : List Bytes) :
    verdicts o lines = (reached o lines).map (Verdict.ofLine o) := by
  induction lines with
  | nil => rfl
  | cons line rest ih =>
    rw [verdicts_cons, Verdict.stops_ofLine, reached, List.map_cons, ih]
    split <;> rfl

namespace Event

def line? : Event → Option Nat
  | malformed line _ | checksumMismatch line .. | endOfFile line | baseSet line _
  | noAddress line _ | ignored line _ => some line
  | dropped .. => none

def isNumbered (e : Event) : Bool := e.line?.isSome

def rejection? : Event → Option (Nat × Record.ParseError)
  | malformed line e => some (line, e)
  | _ => none

theorem isNumbered_of_rejection? {e : Event} (h : e.rejection?.isSome) : e.isNumbered = true := by
  cases e with
  | malformed line e => rfl
  | _ => cases h

end Event

/-- What is reported of the line with a number. The words of a data record that are dropped are
reported on their own. -/
def Verdict.report? (number : Nat) : Verdict → Option Event
  | comment | data _ => none
  | malformed e => some (.malformed number e)
  | checksumMismatch expected found => some (.checksumMismatch number expected found)
  | endOfFile => some (.endOfFile number)
  | base address => some (.baseSet number address)
  | noAddress bytes => some (.noAddress number bytes)
  | ignored kind => some (.ignored number kind)

def reportsFrom (o : Options) (number : Nat) (lines : List Bytes) : List Event :=
  (lines.zipIdx number).filterMap fun m => (Verdict.ofLine o m.1).report? m.2

theorem reportsFrom_cons (o : Options) (number : Nat) (line : Bytes) (rest : List Bytes) :
    reportsFrom o number (line :: rest) =
      ((Verdict.ofLine o line).report? number).toList ++ reportsFrom o (number + 1) rest := by
  rw [reportsFrom, List.zipIdx_cons, List.filterMap_cons]
  cases (Verdict.ofLine o line).report? number <;> rfl

namespace Load

def numbered (l : Load) : List Event := l.events.toList.filter Event.isNumbered

theorem filter_dropReports (size : Nat) (ws : List (UInt64 × UInt32)) :
    (dropReports size ws).filter Event.isNumbered = [] := by
  rw [dropReports, List.filter_map]
  exact congrArg _ (List.filter_eq_nil_iff.mpr fun _ _ => Bool.false_ne_true)

theorem apply_numbered (l : Load) (number : Nat) (v : Verdict) :
    (l.apply number v).numbered = l.numbered ++ (v.report? number).toList := by
  have hnote (e : Event) (he : e.isNumbered = true) :
      (l.events.push e).toList.filter Event.isNumbered = l.numbered ++ [e] := by
    rw [Array.toList_push, List.filter_append, List.filter_singleton, he]
    rfl
  cases v with
  | comment => exact (List.append_nil _).symm
  | data r =>
    change (l.countRecord.storeWords (l.base + r.address.toUInt64) r.words).numbered = _
    rw [numbered, storeWords_events, List.filter_append, filter_dropReports]
    rfl
  | malformed e => exact hnote _ rfl
  | checksumMismatch expected found => exact hnote _ rfl
  | endOfFile => exact hnote _ rfl
  | base address => exact hnote _ rfl
  | noAddress bytes => exact hnote _ rfl
  | ignored kind => exact hnote _ rfl

theorem run_numbered (o : Options) (lines : List Bytes) (number : Nat) (l : Load)
    (hstopped : l.stopped = false) : (run o number lines l).numbered =
      l.numbered ++ reportsFrom o number (reached o lines) := by
  induction lines generalizing number l with
  | nil => exact (List.append_nil _).symm
  | cons line rest ih =>
    have hstep := apply_numbered l number (.ofLine o line)
    have hends : (l.apply number (.ofLine o line)).stopped = isEnd o line := by
      rw [apply_stopped, hstopped, Bool.or_false, Verdict.stops_ofLine]
    rw [run, if_neg (by simp [hstopped]), reached, reportsFrom_cons, ← List.append_assoc, ← hstep]
    by_cases hend : isEnd o line
    · rw [if_pos hend, run_of_stopped o _ rest (hends.trans hend)]
      exact (List.append_nil _).symm
    · rw [if_neg hend]
      exact ih _ _ (hends.trans (Bool.eq_false_iff.mpr hend))

end Load

theorem numbered_load (o : Options) (source : Source) (memory : Memory) :
    (load o source memory).events.toList.filter Event.isNumbered =
      reportsFrom o 1 (reached o source.lines) :=
  Load.run_numbered o source.lines 1 { memory } rfl

section Rejections

open Record (rejection?)

theorem report?_ofRecord (o : Options) (number : Nat) (r : Record) :
    ((Verdict.ofRecord o r).report? number).bind Event.rejection? = none := by
  have haddress (shift : UInt64) :
      ((Verdict.ofAddress r shift).report? number).bind Event.rejection? = none := by
    unfold Verdict.ofAddress
    split <;> rfl
  unfold Verdict.ofRecord
  split
  · rfl
  · unfold Verdict.ofKind
    split
    · rfl
    · split <;> rfl
    · split
      · exact haddress 4
      · rfl
    · split
      · exact haddress 16
      · rfl
    · rfl

theorem report?_rejection? (o : Options) (number : Nat) (line : Bytes) :
    ((Verdict.ofLine o line).report? number).bind Event.rejection? =
      (rejection? line).map (number, ·) := by
  by_cases hstart : line.head? = some Record.startCode
  · cases hparse : Record.parse line with
    | error e =>
      rw [Verdict.ofLine_of_error o hstart hparse, Record.rejection?_of_error hstart hparse]
      rfl
    | ok r =>
      rw [Verdict.ofLine_of_parse o hparse, Record.rejection?_of_parse hparse]
      exact report?_ofRecord o number r
  · rw [Verdict.ofLine_of_other o hstart, rejection?, if_neg hstart]
    rfl

theorem rejections_load (o : Options) (source : Source) (memory : Memory) :
    (load o source memory).events.toList.filterMap Event.rejection? =
      ((reached o source.lines).zipIdx 1).filterMap fun m => (rejection? m.1).map (m.2, ·) := by
  have hnumbered : (load o source memory).events.toList.filterMap Event.rejection? =
      ((load o source memory).events.toList.filter Event.isNumbered).filterMap
        Event.rejection? := by
    rw [List.filterMap_filter]
    refine List.filterMap_congr fun e _ => ?_
    cases he : e.rejection? with
    | none => simp
    | some rejection =>
      rw [if_pos (Event.isNumbered_of_rejection? (by rw [he]; rfl))]
  rw [hnumbered, numbered_load, reportsFrom, List.filterMap_filterMap]
  exact List.filterMap_congr fun m _ => report?_rejection? o m.2 m.1

theorem isMalformed_eq (o : Options) (line : Bytes) :
    isMalformed o line = ((rejection? line).isSome || isRefused o line) := by
  cases hparse : Record.parse line with
  | ok r =>
    have hread : Record.readsAs (fun _ => true) line = true := by rw [Record.readsAs, hparse]
    simp [isMalformed, hread, Record.rejection?_of_parse hparse]
  | error e =>
    have hread : Record.readsAs (fun _ => true) line = false := by rw [Record.readsAs, hparse]
    simp only [isMalformed, hread, rejection?, hparse]
    split <;> simp [*]

theorem isRefused_of_rejection? {o : Options} {line : Bytes} (h : (rejection? line).isSome) :
    isRefused o line = false := by
  cases hparse : Record.parse line with
  | ok r =>
    rw [Record.rejection?_of_parse hparse] at h
    cases h
  | error e => rw [isRefused, Record.readsAs, hparse]

theorem countP_isMalformed (o : Options) (lines : List Bytes) :
    lines.countP (isMalformed o) =
      lines.countP (fun line => (rejection? line).isSome) + lines.countP (isRefused o) := by
  induction lines with
  | nil => rfl
  | cons line rest ih =>
    simp only [List.countP_cons, ih, isMalformed_eq]
    cases hrejected : (rejection? line).isSome with
    | false =>
      simp only [Bool.false_or, Bool.false_eq_true, if_false]
      omega
    | true =>
      rw [isRefused_of_rejection? hrejected]
      simp only [Bool.or_false, if_true, Bool.false_eq_true, if_false]
      omega

theorem malformed_load {o : Options} {source : Source} {memory : Memory} {s : Summary}
    (h : (load o source memory).result = .ok s) :
    s.malformed = (reached o source.lines).countP (isMalformed o) := by
  obtain ⟨_, hsummary⟩ := Load.run_eq o source.lines 1 { memory } rfl isBase_zero
  have hs : s = (Load.run o 1 source.lines { memory }).summary := by
    simp only [load] at h
    split at h
    · exact (Except.ok.inj h).symm
    · split at h
      · exact (Except.ok.inj h).symm
      · cases h
  rw [hs, hsummary, Summary.empty_plus]
  simp only [tally, Summary.plus, Summary.ofWords, Nat.add_zero, verdicts_eq_map_reached,
    List.countP_map]
  exact List.countP_congr fun line _ => by
    rw [Function.comp_apply, Verdict.isFault_ofLine]

/-- A line that is refused is refused for its first fault, and for nothing that stands behind its
payload. A load reports each refused line that begins with a colon once, as a warning with its
number among all lines, and counts it once as malformed, beside the records that it refuses. -/
theorem first_fault_reported :
    (∀ line e, Record.parse line = .error e ↔ Record.FirstFault line.trimEnd e) ∧
    (∀ line length high low code payload rest,
      Record.Fields line length high low code payload rest → ∃ r, Record.parse line = .ok r) ∧
    (∀ o source memory,
      let loaded := load o source memory
      let lines := reached o source.lines
      loaded.events.toList.filterMap Event.rejection? =
        (lines.zipIdx 1).filterMap (fun m => (rejection? m.1).map (m.2, ·)) ∧
      (source.failure = none → ∃ s, loaded.result = .ok s) ∧
      ∀ s, loaded.result = .ok s → s.malformed =
        lines.countP (fun line => (rejection? line).isSome) + lines.countP (isRefused o)) ∧
    ∀ number e, (Event.malformed number e).entry =
      ⟨.warn, origin,
        "line " ++ toString number ++ ": " ++ ("skipping malformed record: " ++ e.message)⟩ := by
  refine ⟨fun line e => Record.parse_eq_error_iff, ?_, ?_, fun number e => rfl⟩
  · intro line length high low code payload rest hfields
    exact ⟨_, hfields.parse⟩
  · intro o source memory loaded lines
    refine ⟨rejections_load o source memory, fun hends => ?_, fun s hs => ?_⟩
    · simp only [loaded, load, hends]
      exact ⟨_, rfl⟩
    · rw [malformed_load hs, countP_isMalformed]

/-- Each of the four lines that are refused has a later fault as well. The last line holds a record
whose checksum is not spelled. -/
theorem first_fault_reported_each :
    let text := Bytes.ofString ":0Z0G\nnote\n:0200000Z0\n:02000000Z\n:020000000XYZ\n:0100000041Q"
    let loaded := load {} ⟨text, none⟩ #[7]
    Record.FirstFault (Bytes.ofString ":0200000Z0").trimEnd (.header (.badDigit 90 7)) ∧
      (∃ r, Record.parse (Bytes.ofString ":0100000041Q") = .ok r) ∧
      loaded.events.toList.filterMap Event.rejection? =
        [(1, .shortHeader 4), (3, .header (.badDigit 90 7)), (4, .shortPayload 2 1),
          (5, .payload (.badDigit 88 1))] ∧
      ∃ s, loaded.result = .ok s ∧ s.malformed = 4 := by
  intro text loaded
  obtain ⟨hfault, hread, hload, _⟩ := first_fault_reported
  obtain ⟨hreports, hends, hcount⟩ := hload {} ⟨text, none⟩ #[7]
  obtain ⟨s, hs⟩ := hends rfl
  obtain ⟨high, low, rest, hfields⟩ := Record.fields_of_parse
    (show Record.parse (Bytes.ofString ":0100000041Q") = .ok ⟨1, 0, .data, [65], none⟩ by rfl)
  exact ⟨(hfault _ _).mp (by rfl), hread _ _ _ _ _ _ _ hfields,
    hreports.trans (by decide +kernel), s, hs, (hcount s hs).trans (by decide +kernel)⟩

end Rejections

end Image
end HexBench
