import HexBench.Proofs.Image.Base
import HexBench.Proofs.Image.Reports
import Mathlib.Algebra.GroupWithZero.Nat

set_option autoImplicit false

namespace HexBench.Image

open Record (startCode)

def dataRecord? (o : Options) (line : Bytes) : Option Record :=
  match Record.parse line with
  | .ok r => if o.accepts r ∧ r.kind = .data then some r else none
  | .error _ => none

theorem length_of_dataRecord? {o : Options} {line : Bytes} {r : Record}
    (h : dataRecord? o line = some r) : r.payload.length = r.length.toNat := by
  rw [dataRecord?] at h
  split at h
  · rename_i s hparse
    split at h
    · cases h
      exact Record.payload_length_of_parse hparse
    · cases h
  · cases h

section Lines

namespace Verdict

def isRecord : Verdict → Bool
  | comment => false
  | _ => true

def data? : Verdict → Option Record
  | data r => some r
  | _ => none

/-- Each line that begins as a record comes to one of five ends. -/
theorem isRecord_ends (v : Verdict) :
    (if v.isRecord then 1 else 0) =
      (if v.data?.isSome then 1 else 0) + (if v.isIgnored then 1 else 0) +
        (if v.isFault then 1 else 0) + (if v.base?.isSome then 1 else 0) +
        if v.stops then 1 else 0 := by
  cases v <;> rfl

theorem countP_isRecord (vs : List Verdict) :
    vs.countP isRecord = (vs.filterMap data?).length + vs.countP isIgnored + vs.countP isFault +
      vs.countP (fun v => v.base?.isSome) + vs.countP stops := by
  rw [List.length_filterMap_eq_countP]
  induction vs with
  | nil => rfl
  | cons v vs ih =>
    have hv := v.isRecord_ends
    simp only [List.countP_cons, ih]
    omega

theorem ofAddress_isRecord (r : Record) (shift : UInt64) :
    (ofAddress r shift).isRecord = true ∧ (ofAddress r shift).data? = none := by
  unfold ofAddress
  split
  · exact ⟨rfl, rfl⟩
  · exact ⟨rfl, rfl⟩

theorem ofKind_isRecord (o : Options) (r : Record) : (ofKind o r).isRecord = true ∧
    (ofKind o r).data? = if r.kind = .data then some r else none := by
  have hsegment := ofAddress_isRecord r 4
  have hlinear := ofAddress_isRecord r 16
  rw [ofKind]
  cases o.extendedRecords with
  | false => cases r.kind <;> exact ⟨rfl, rfl⟩
  | true =>
    cases r.kind with
    | extendedSegmentAddress => exact hsegment
    | extendedLinearAddress => exact hlinear
    | _ => exact ⟨rfl, rfl⟩

theorem ofLine_isRecord (o : Options) (line : Bytes) :
    (ofLine o line).isRecord = decide (line.head? = some startCode) ∧
      (ofLine o line).data? = dataRecord? o line := by
  rw [dataRecord?]
  cases hparse : Record.parse line with
  | ok r =>
    obtain ⟨hrecord, hdata⟩ := ofKind_isRecord o r
    rw [ofLine_of_parse o hparse, ofRecord_eq, Record.startCode_head?_of_parse hparse]
    cases haccepts : o.accepts r with
    | true => simpa [haccepts] using And.intro hrecord hdata
    | false => simp [haccepts, isRecord, data?]
  | error e =>
    by_cases hstart : line.head? = some startCode
    · rw [ofLine_of_error o hstart hparse]
      exact ⟨(decide_eq_true hstart).symm, rfl⟩
    · rw [ofLine_of_other o hstart]
      exact ⟨(decide_eq_false hstart).symm, rfl⟩

end Verdict

theorem countP_startCode (o : Options) (lines : List Bytes) :
    lines.countP (fun line => line.head? = some startCode) =
      (lines.filterMap (dataRecord? o)).length + lines.countP (isSkipped o) +
        lines.countP (isMalformed o) + lines.countP (fun line => (setsBase? o line).isSome) +
        lines.countP (isEnd o) := by
  have hverdicts := Verdict.countP_isRecord (lines.map (Verdict.ofLine o))
  simpa only [List.countP_map, List.filterMap_map, Function.comp_def, Verdict.ofLine_isRecord,
    Verdict.isIgnored_ofLine, Verdict.isFault_ofLine, Verdict.base?_ofLine, Verdict.stops_ofLine]
    using hverdicts

theorem countP_isEnd_reached (o : Options) (lines : List Bytes) :
    (reached o lines).countP (isEnd o) = if lines.any (isEnd o) then 1 else 0 := by
  induction lines with
  | nil => rfl
  | cons line rest ih =>
    rw [reached, List.countP_cons, List.any_cons]
    cases isEnd o line with
    | true => rfl
    | false => simpa using ih

theorem map_record_placed (vs : List Verdict) (current : UInt64) :
    (placed current vs).map Placed.record = vs.filterMap Verdict.data? := by
  induction vs generalizing current with
  | nil => rfl
  | cons v vs ih =>
    rw [placed, List.map_append, ih]
    cases v <;> rfl

theorem map_record_applied (o : Options) (text : Bytes) :
    (applied o text).map Placed.record =
      (reached o text.lines.all).filterMap (dataRecord? o) := by
  rw [applied, map_record_placed, verdicts_eq_map_reached, List.filterMap_map]
  exact List.filterMap_congr fun line _ => (Verdict.ofLine_isRecord o line).2

theorem length_flatMap_writes (ps : List Placed) :
    (ps.flatMap Placed.writes).length =
      ((ps.map Placed.record).map fun r => wordCount r.payload.length).sum := by
  rw [List.length_flatMap, List.map_map]
  refine congrArg List.sum (List.map_congr_left fun p _ => ?_)
  rw [Placed.writes, List.length_map, List.length_range]
  rfl

theorem summary_load (o : Options) (text : Bytes) (memory : Memory) :
    let lines := reached o text.lines.all
    ∃ s, (load o ⟨text, none⟩ memory).result = .ok s ∧
      s.records = (lines.filterMap (dataRecord? o)).length ∧
      s.skipped = lines.countP (isSkipped o) ∧ s.malformed = lines.countP (isMalformed o) ∧
      s.written + s.dropped =
        ((lines.filterMap (dataRecord? o)).map fun r => wordCount r.length.toNat).sum := by
  intro lines
  have hverdicts : verdicts o text.lines.all = lines.map (Verdict.ofLine o) :=
    verdicts_eq_map_reached o text.lines.all
  refine ⟨_, (load_text o text memory).2, ?_, ?_, ?_, ?_⟩
  · rw [← map_record_applied, List.length_map]
    rfl
  · simp only [tally, Summary.plus, Summary.ofWords, Nat.add_zero, hverdicts, List.countP_map]
    exact List.countP_congr fun line _ => by
      rw [Function.comp_apply, Verdict.isIgnored_ofLine]
  · exact @malformed_load o ⟨text, none⟩ memory _ (load_text o text memory).2
  · have hwords := Summary.ofWords_sum memory.size ((applied o text).flatMap Placed.writes)
    rw [length_flatMap_writes, map_record_applied] at hwords
    simp only [tally, Summary.plus, Nat.zero_add, hwords]
    refine congrArg List.sum (List.map_congr_left fun r hr => ?_)
    obtain ⟨line, _, hline⟩ := List.mem_filterMap.mp hr
    rw [length_of_dataRecord? hline]

end Lines

section Log

namespace Event

def isWarning (e : Event) : Bool := e.level = .warn

def isIgnored : Event → Bool
  | ignored .. => true
  | _ => false

def isDropped : Event → Bool
  | dropped .. => true
  | _ => false

end Event

/-- The log agrees with the counts. -/
structure Load.Accounted (l : Load) : Prop where
  warnings : l.events.countP Event.isWarning = l.summary.malformed
  ignored : l.events.countP Event.isIgnored = l.summary.skipped
  dropped : l.events.countP Event.isDropped = l.summary.dropped

namespace Load

theorem Accounted.push {l next : Load} {e : Event} (h : l.Accounted)
    (hevents : next.events = l.events.push e)
    (hmalformed : next.summary.malformed = l.summary.malformed + if e.isWarning then 1 else 0)
    (hskipped : next.summary.skipped = l.summary.skipped + if e.isIgnored then 1 else 0)
    (hdropped : next.summary.dropped = l.summary.dropped + if e.isDropped then 1 else 0) :
    next.Accounted where
  warnings := by
    rw [hevents, Array.countP_push, h.warnings, hmalformed]
  ignored := by
    rw [hevents, Array.countP_push, h.ignored, hskipped]
  dropped := by
    rw [hevents, Array.countP_push, h.dropped, hdropped]

theorem Accounted.store {l : Load} (h : l.Accounted) (index : UInt64) (word : UInt32) :
    (l.store index word).Accounted := by
  unfold Load.store
  split
  · exact ⟨h.warnings, h.ignored, h.dropped⟩
  · exact h.push rfl rfl rfl rfl

theorem Accounted.storeWords {l : Load} (h : l.Accounted) (address : UInt64)
    (words : List (Nat × UInt32)) : (l.storeWords address words).Accounted := by
  induction words generalizing l with
  | nil => exact h
  | cons w words ih => exact ih (h.store (wordIndex address w.1) w.2)

theorem Accounted.apply {l : Load} (h : l.Accounted) (number : Nat) (v : Verdict) :
    (l.apply number v).Accounted := by
  cases v with
  | comment => exact h
  | data r =>
    have hcounted : l.countRecord.Accounted := ⟨h.warnings, h.ignored, h.dropped⟩
    exact hcounted.storeWords _ _
  | malformed e => exact h.push rfl rfl rfl rfl
  | checksumMismatch expected found => exact h.push rfl rfl rfl rfl
  | endOfFile => exact h.push rfl rfl rfl rfl
  | base address => exact h.push rfl rfl rfl rfl
  | noAddress bytes => exact h.push rfl rfl rfl rfl
  | ignored kind => exact h.push rfl rfl rfl rfl

theorem Accounted.run {l : Load} (h : l.Accounted) (o : Options) (number : Nat)
    (lines : List Bytes) : (run o number lines l).Accounted := by
  induction lines generalizing number l with
  | nil => exact h
  | cons line rest ih =>
    rw [Load.run]
    split
    · exact h
    · exact ih (h.apply number (.ofLine o line)) (number + 1)

end Load

def Event.Describes (o : Options) (line : Bytes) : Event → Prop
  | malformed _ e => Record.rejection? line = some e
  | checksumMismatch _ expected found => ∃ r, Record.parse line = .ok r ∧ o.accepts r = false ∧
      expected = r.expectedChecksum ∧ found = r.checksum
  | endOfFile _ => isEnd o line
  | baseSet _ address => setsBase? o line = some address.toNat
  | noAddress _ bytes => ∃ r, Record.parse line = .ok r ∧ o.accepts r ∧ o.extendedRecords ∧
      r.kind.isAddress ∧ bytes = r.payload.length ∧ bytes ≠ 2
  | ignored _ kind => isSkipped o line ∧ ∃ r, Record.parse line = .ok r ∧ kind = r.kind
  | dropped .. => False

theorem line?_of_report? {v : Verdict} {number : Nat} {e : Event}
    (h : v.report? number = some e) : e.line? = some number := by
  cases v with
  | comment => cases h
  | data r => cases h
  | _ =>
    cases h
    rfl

theorem describes_ofAddress {o : Options} {line : Bytes} {r : Record} {shift : UInt64}
    (hparse : Record.parse line = .ok r) (haccepts : o.accepts r) (hextended : o.extendedRecords)
    (haddress : r.kind.isAddress) (hline : Verdict.ofLine o line = .ofAddress r shift)
    (number : Nat) : ∀ e ∈ (Verdict.ofAddress r shift).report? number, e.Describes o line := by
  have hbase := Verdict.base?_ofLine o line
  have hlength := upperAddress?_isSome r
  rw [hline] at hbase
  intro e he
  unfold Verdict.ofAddress at he hbase
  split at he
  · cases he
    rw [‹r.upperAddress? = _›] at hbase
    exact hbase.symm
  · cases he
    rw [‹r.upperAddress? = _›] at hlength
    exact ⟨r, hparse, haccepts, hextended, haddress, rfl, of_decide_eq_false hlength.symm⟩

theorem Verdict.ofKind_cases (o : Options) (r : Record) :
    ofKind o r = data r ∨ ofKind o r = endOfFile ∨ ofKind o r = ignored r.kind ∨
      o.extendedRecords = true ∧ r.kind.isAddress = true ∧
        ∃ shift, ofKind o r = ofAddress r shift := by
  rw [ofKind]
  cases o.extendedRecords with
  | false => cases r.kind <;> simp
  | true =>
    cases r.kind with
    | data => exact .inl rfl
    | endOfFile => exact .inr (.inl rfl)
    | extendedSegmentAddress => exact .inr (.inr (.inr ⟨rfl, rfl, 4, rfl⟩))
    | extendedLinearAddress => exact .inr (.inr (.inr ⟨rfl, rfl, 16, rfl⟩))
    | _ => exact .inr (.inr (.inl rfl))

theorem describes_ofKind {o : Options} {line : Bytes} {r : Record}
    (hparse : Record.parse line = .ok r) (haccepts : o.accepts r)
    (hline : Verdict.ofLine o line = .ofKind o r) (number : Nat) :
    ∀ e ∈ (Verdict.ofKind o r).report? number, e.Describes o line := by
  have hends := Verdict.stops_ofLine o line
  have hskipped := Verdict.isIgnored_ofLine o line
  intro e he
  rcases Verdict.ofKind_cases o r with hv | hv | hv | ⟨hextended, haddress, shift, hv⟩ <;>
    rw [hv] at he hline
  · cases he
  · cases he
    rw [hline] at hends
    exact hends.symm
  · cases he
    rw [hline] at hskipped
    exact ⟨hskipped.symm, r, hparse, rfl⟩
  · exact describes_ofAddress hparse haccepts hextended haddress hline number e he

theorem describes_of_report? {o : Options} {line : Bytes} {number : Nat} {e : Event}
    (h : (Verdict.ofLine o line).report? number = some e) : e.Describes o line := by
  cases hparse : Record.parse line with
  | ok r =>
    have hline := (Verdict.ofLine_of_parse o hparse).trans (Verdict.ofRecord_eq o r)
    cases haccepts : o.accepts r with
    | true =>
      rw [if_pos haccepts] at hline
      rw [hline] at h
      exact describes_ofKind hparse haccepts hline number e h
    | false =>
      rw [haccepts, if_neg Bool.false_ne_true] at hline
      rw [hline] at h
      cases h
      exact ⟨r, hparse, haccepts, rfl, rfl⟩
  | error fault =>
    by_cases hstart : line.head? = some startCode
    · rw [Verdict.ofLine_of_error o hstart hparse] at h
      cases h
      exact Record.rejection?_of_error hstart hparse
    · rw [Verdict.ofLine_of_other o hstart] at h
      cases h

theorem numbers_reportsFrom (o : Options) (number : Nat) (lines : List Bytes) :
    ((reportsFrom o number lines).filterMap Event.line?).Sublist
      (List.range' number lines.length) := by
  induction lines generalizing number with
  | nil => exact List.Sublist.refl []
  | cons line rest ih =>
    rw [reportsFrom_cons, List.filterMap_append, List.length_cons, List.range'_succ]
    cases hreport : (Verdict.ofLine o line).report? number with
    | none => exact (ih (number + 1)).cons number
    | some e =>
      have hnumber : [e].filterMap Event.line? = [number] := by
        rw [List.filterMap_cons, line?_of_report? hreport]
        rfl
      rw [Option.toList_some, hnumber]
      exact (ih (number + 1)).cons_cons number

theorem numbers_load (o : Options) (source : Source) (memory : Memory) :
    ((load o source memory).events.toList.filterMap Event.line?).Pairwise (· < ·) := by
  have hnumbered : (load o source memory).events.toList.filterMap Event.line? =
      (reportsFrom o 1 (reached o source.lines)).filterMap Event.line? := by
    rw [← numbered_load o source memory, List.filterMap_filter]
    refine List.filterMap_congr fun e _ => ?_
    cases hline : e.line? <;> simp [Event.isNumbered, hline]
  rw [hnumbered]
  exact List.Pairwise.sublist (numbers_reportsFrom o 1 _) (List.pairwise_lt_range' 1)

theorem describes_of_mem_load {o : Options} {source : Source} {memory : Memory} {e : Event}
    (he : e ∈ (load o source memory).events) {number : Nat} (hnumber : e.line? = some number) :
    ∃ line, 0 < number ∧ source.lines[number - 1]? = some line ∧ e.Describes o line := by
  have hmem : e ∈ reportsFrom o 1 (reached o source.lines) := by
    rw [← numbered_load o source memory]
    exact List.mem_filter.mpr ⟨he.val, by rw [Event.isNumbered, hnumber]; rfl⟩
  obtain ⟨⟨line, n⟩, hm, hreport⟩ := List.mem_filterMap.mp hmem
  have hn : n = number := Option.some.inj ((line?_of_report? hreport).symm.trans hnumber)
  subst hn
  obtain ⟨hfirst, hline⟩ := List.mk_mem_zipIdx_iff_le_and_getElem?_sub.mp hm
  obtain ⟨hn, rfl⟩ := List.getElem?_eq_some_iff.mp hline
  exact ⟨_, hfirst, List.prefix_iff_getElem?.mp (reached_prefix_lines o source.lines) _ hn,
    describes_of_report? hreport⟩

theorem message_of_line? {e : Event} {number : Nat} (h : e.line? = some number) :
    ∃ told, e.message = Event.atLine number told := by
  cases e with
  | dropped index word capacity => cases h
  | _ =>
    cases h
    exact ⟨_, rfl⟩

end Log

/-- Each line that begins as a record, up to the one that ends the load, is counted once: as an
applied record, as one that is passed over, as malformed, as setting the base, or as the end. Each
word of an applied record is counted as written or as dropped. As many warnings, ignored records
and dropped words are logged as are counted. The numbers in the log rise, and each is that of the
line which the event describes. -/
theorem load_accounts (o : Options) (text : Bytes) (memory : Memory) :
    let loaded := load o ⟨text, none⟩ memory
    let lines := reached o text.lines.all
    let data := lines.filterMap (dataRecord? o)
    ∃ s, loaded.result = .ok s ∧
      lines.countP (fun line => line.head? = some startCode) =
        s.records + s.skipped + s.malformed +
          lines.countP (fun line => (setsBase? o line).isSome) +
          (if text.lines.all.any (isEnd o) then 1 else 0) ∧
      (o.extendedRecords = false → lines.countP (fun line => (setsBase? o line).isSome) = 0) ∧
      s.records = data.length ∧
      s.written + s.dropped = (data.map fun r => (r.length.toNat + 3) / 4).sum ∧
      loaded.events.countP Event.isWarning = s.malformed ∧
      loaded.events.countP Event.isDropped = s.dropped ∧
      loaded.events.countP Event.isIgnored = s.skipped ∧
      (loaded.events.toList.filterMap Event.line?).Pairwise (· < ·) ∧
      ∀ e ∈ loaded.events, ∀ number, e.line? = some number →
        (∃ told, e.message = Event.atLine number told) ∧
        ∃ line, 0 < number ∧ text.lines.all[number - 1]? = some line ∧ e.Describes o line := by
  intro loaded lines data
  obtain ⟨s, hs, hrecords, hskipped, hmalformed, hwords⟩ := summary_load o text memory
  have haccounted : (Load.run o 1 text.lines.all { memory }).Accounted :=
    Load.Accounted.run ⟨rfl, rfl, rfl⟩ o 1 text.lines.all
  have hsummary : (Load.run o 1 text.lines.all { memory }).summary = s := Except.ok.inj hs
  have hwarnings := haccounted.warnings
  have hignored := haccounted.ignored
  have hdropped := haccounted.dropped
  rw [hsummary] at hwarnings hignored hdropped
  refine ⟨s, hs, ?_, fun hplain => ?_, hrecords, hwords, hwarnings, hdropped, hignored,
    numbers_load o _ memory, fun e he number hnumber => ?_⟩
  · rw [hrecords, hskipped, hmalformed, ← countP_isEnd_reached]
    exact countP_startCode o lines
  · refine List.countP_eq_zero.mpr fun line _ => ?_
    rw [setsBase?_of_plain hplain]
    exact Bool.false_ne_true
  · exact ⟨message_of_line? hnumber, describes_of_mem_load he hnumber⟩

/-- One line of each kind: the eighth fails its checksum, and the tenth is behind the end. -/
theorem load_accounts_each_kind :
    let text := Bytes.ofString (":0400000001000000FB\nnote\n:02000002\n:020000040000FA\n"
      ++ ":0100000402F9\n:0400000300000000F9\n:050010000100000002E8\n:0400040002000000F7\n"
      ++ ":00000001FF\n:0400040002000000F6\n")
    let loaded := load ⟨true, true⟩ ⟨text, none⟩ #[7, 7]
    (∃ s, loaded.result = .ok s ∧ s.records + s.skipped + s.malformed + 1 + 1 = 8 ∧
      s.records = 2 ∧ s.written + s.dropped = 3 ∧ s.malformed = 3 ∧ s.dropped = 2 ∧
      s.skipped = 1 ∧ loaded.events.toList.filterMap Event.line? = [3, 4, 5, 6, 8, 9] ∧
      Event.Describes ⟨true, true⟩ (Bytes.ofString ":0400040002000000F7")
        (.checksumMismatch 8 246 (some 247))) ∧
    (reached {} text.lines.all).countP (fun line => (setsBase? {} line).isSome) = 0 := by
  intro text loaded
  obtain ⟨s, hs, hlines, _, hrecords, hwords, hwarnings, hdropped, hignored, _, habout⟩ :=
    load_accounts ⟨true, true⟩ text #[7, 7]
  obtain ⟨_, _, _, hplain, _⟩ := load_accounts {} text #[7, 7]
  have hmem : Event.checksumMismatch 8 246 (some 247) ∈ loaded.events := by decide +kernel
  obtain ⟨_, line, _, hline, hdescribes⟩ := habout _ hmem 8 rfl
  have heighth : text.lines.all[7]? = some (Bytes.ofString ":0400040002000000F7") := by
    decide +kernel
  obtain rfl := Option.some.inj (heighth.symm.trans hline)
  exact ⟨⟨s, hs, hlines.symm.trans (by decide +kernel), hrecords.trans (by decide +kernel),
    hwords.trans (by decide +kernel), hwarnings.symm.trans (by decide +kernel),
    hdropped.symm.trans (by decide +kernel), hignored.symm.trans (by decide +kernel),
    by decide +kernel, hdescribes⟩, hplain rfl⟩

end HexBench.Image
