import HexBench.Proofs.Wave.Identifier
import HexBench.Proofs.Wave.Sink
import HexBench.Wave.Dump
import Mathlib.Data.List.Nodup

set_option autoImplicit false

namespace HexBench.Wave

structure Sample where
  time : UInt64
  signals : List Signal

/-- Of several signals with one name the first one counts. -/
def Sample.value? (s : Sample) (name : String) : Option UInt64 :=
  (s.signals.find? fun signal => signal.name == name).map Signal.value

def lastValue? (samples : List Sample) (name : String) : Option UInt64 :=
  samples.reverse.findSome? fun s => s.value? name

theorem lastValue?_cons (s : Sample) (rest : List Sample) (name : String) :
    lastValue? (s :: rest) name = (lastValue? rest name).or (s.value? name) := by
  rw [lastValue?, List.reverse_cons, List.findSome?_append, List.findSome?_singleton]
  rfl

namespace Var

def next (s : Sample) (v : Var) : Var := (v.update? s.signals).getD v

def run (samples : List Sample) (v : Var) : Var := samples.foldl (fun v s => v.next s) v

theorem next_eq (s : Sample) (v : Var) : v.next s =
    { v with signal := { v.signal with
      value := (s.value? v.signal.name).getD v.signal.value } } := by
  rw [next, update?, Sample.value?]
  cases s.signals.find? fun signal => signal.name == v.signal.name with
  | none => rfl
  | some now =>
    by_cases hsame : now.value = v.signal.value
    · simp only [hsame, if_true, Option.getD_none, Option.map_some, Option.getD_some]
    · simp only [hsame, if_false, Option.getD_some, Option.map_some]

theorem next_id (s : Sample) (v : Var) : (v.next s).id = v.id := by rw [next_eq]

theorem next_of_update? {s : Sample} {v v' : Var} (h : v.update? s.signals = some v') :
    v.next s = v' := by
  rw [next, h]
  rfl

theorem map_next_id (s : Sample) (vars : List Var) :
    (vars.map (Var.next s)).map Var.id = vars.map Var.id := by
  rw [List.map_map]
  exact List.map_congr_left fun v _ => v.next_id s

theorem run_eq (samples : List Sample) (v : Var) : v.run samples =
    { v with signal := { v.signal with
      value := (lastValue? samples v.signal.name).getD v.signal.value } } := by
  induction samples generalizing v with
  | nil => rfl
  | cons s rest ih =>
    have hrun : v.run (s :: rest) = (v.next s).run rest := rfl
    rw [hrun, ih, next_eq, lastValue?_cons]
    cases lastValue? rest v.signal.name <;> rfl

end Var

theorem declare_signals (start : Nat) (signals : List Signal) :
    (declare start signals).map Var.signal = signals := by
  induction signals generalizing start with
  | nil => rfl
  | cons s rest ih => rw [declare, List.map_cons, ih]

theorem signal_mem_of_mem_declare {start : Nat} {signals : List Signal} {v : Var}
    (h : v ∈ declare start signals) : v.signal ∈ signals := by
  rw [← declare_signals start signals]
  exact List.mem_map_of_mem h

theorem declare_length (start : Nat) (signals : List Signal) :
    (declare start signals).length = signals.length := by
  rw [← List.length_map Var.signal, declare_signals]

theorem declare_ids (start : Nat) (signals : List Signal) : (declare start signals).map Var.id =
    (List.range' start signals.length).map identifier := by
  induction signals generalizing start with
  | nil => rfl
  | cons s rest ih => rw [declare, List.map_cons, ih, List.length_cons, List.range'_succ,
      List.map_cons]

theorem declare_nodup (signals : List Signal) : ((declare 0 signals).map Var.id).Nodup := by
  rw [declare_ids]
  exact List.Nodup.map identifier_injective List.nodup_range'

theorem updates_sublist (s : Sample) (vars : List Var) :
    ((vars.filterMap (Var.update? s.signals)).map Var.id).Sublist (vars.map Var.id) := by
  induction vars with
  | nil => exact .slnil
  | cons v rest ih =>
    cases hupdate : v.update? s.signals with
    | none =>
      rw [List.filterMap_cons_none hupdate]
      exact ih.cons v.id
    | some v' =>
      rw [List.filterMap_cons_some hupdate, List.map_cons, List.map_cons,
        ← Var.next_of_update? hupdate, Var.next_id]
      exact ih.cons_cons v.id

theorem id_notMem_updates {s : Sample} {vars : List Var} (hids : (vars.map Var.id).Nodup) {v : Var}
    (hv : v ∈ vars) (h : v.update? s.signals = none) :
    v.id ∉ (vars.filterMap (Var.update? s.signals)).map Var.id := by
  intro hmem
  obtain ⟨w', hw', hid⟩ := List.mem_map.mp hmem
  obtain ⟨w, hw, hupdate⟩ := List.mem_filterMap.mp hw'
  rw [← Var.next_of_update? hupdate, Var.next_id] at hid
  rw [List.inj_on_of_nodup_map hids hw hv hid, h] at hupdate
  cases hupdate

theorem map_next_of_updates_nil {s : Sample} {vars : List Var}
    (h : vars.filterMap (Var.update? s.signals) = []) : vars.map (Var.next s) = vars := by
  have hsame : ∀ v ∈ vars, v.next s = v := fun v hv => by
    rw [Var.next, List.filterMap_eq_nil_iff.mp h v hv, Option.getD_none]
  exact (List.map_congr_left hsame).trans (List.map_id' vars)

theorem updates_declare {s : Sample} (hnames : (s.signals.map Signal.name).Nodup) :
    (declare 0 s.signals).filterMap (Var.update? s.signals) = [] := by
  refine List.filterMap_eq_nil_iff.mpr fun v hv => ?_
  have hsignal := signal_mem_of_mem_declare hv
  rw [Var.update?]
  cases hfind : s.signals.find? fun signal => signal.name == v.signal.name with
  | none => rfl
  | some now =>
    have hname : now.name = v.signal.name := by simpa using List.find?_some hfind
    have hsame := List.inj_on_of_nodup_map hnames (List.mem_of_find?_eq_some hfind) hsignal hname
    simp only [hsame, if_true]

theorem remember_all {marked : List (Var × Option Var)} {n : Nat}
    (h : (marked.filterMap Prod.snd).length ≤ n) :
    remember n marked = marked.map fun m => m.2.getD m.1 := by
  induction marked generalizing n with
  | nil => cases n <;> rfl
  | cons m marked ih =>
    obtain ⟨v, update⟩ := m
    cases update with
    | none =>
      rw [remember, ih h]
      rfl
    | some v' =>
      have hlength : (marked.filterMap Prod.snd).length + 1 ≤ n := h
      cases n with
      | zero => omega
      | succ n =>
        rw [remember, ih (by omega)]
        rfl

def changes (vars : List Var) (s : Sample) : List Line :=
  let records := (vars.filterMap (Var.update? s.signals)).map Var.record
  if records.isEmpty then [] else .stamp s.time :: records

theorem length_filterMap_update?_le (vars : List Var) (s : Sample) :
    (vars.filterMap (Var.update? s.signals)).length ≤ (changes vars s).length := by
  rw [changes]
  cases vars.filterMap (Var.update? s.signals) with
  | nil => exact Nat.zero_le _
  | cons v rest => simp

def linesAfter (vars : List Var) : List Sample → List Line
  | [] => []
  | s :: rest => changes vars s ++ linesAfter (vars.map (Var.next s)) rest

theorem linesAfter_append (vars : List Var) (xs ys : List Sample) : linesAfter vars (xs ++ ys) =
    linesAfter vars xs ++ linesAfter (vars.map (Var.run xs)) ys := by
  induction xs generalizing vars with
  | nil =>
    have hrun : Var.run [] = id := rfl
    rw [hrun, List.map_id]
    rfl
  | cons s xs ih =>
    have hrun : Var.run (s :: xs) = Var.run xs ∘ Var.next s := rfl
    rw [List.cons_append, linesAfter, linesAfter, ih, List.map_map, hrun, List.append_assoc]

namespace Dump

def header (scope : String) (vars : List Var) (time : UInt64) : List Line :=
  [.version, .timescale, .scope scope] ++ vars.map Var.declaration
    ++ [.upscope, .endOfDefinitions, .stamp time, .startOfValues]
    ++ vars.map Var.record ++ [.endOfValues]

theorem writeChanges_ok {d : Dump} {s : Sample}
    (h : (d.writeChanges s.time s.signals).error = none) :
    (d.writeChanges s.time s.signals).dump.started = d.started ∧
      (d.writeChanges s.time s.signals).dump.vars = d.vars.map (Var.next s) ∧
      (d.writeChanges s.time s.signals).dump.sink.text =
        d.sink.text ++ written (changes d.vars s) := by
  have hmarked : (d.vars.map fun v => (v, v.update? s.signals)).filterMap Prod.snd =
      d.vars.filterMap (Var.update? s.signals) := List.filterMap_map
  have hwritten : (d.sink.writeLines ((changes d.vars s).map Line.bytes)).error = none := by
    rw [writeChanges, hmarked] at h
    exact h
  obtain ⟨hcount, htext⟩ := Sink.writeLines_ok hwritten
  rw [writeChanges, hmarked]
  refine ⟨rfl, ?_, htext⟩
  change remember (d.sink.writeLines ((changes d.vars s).map Line.bytes)).count _ = _
  rw [hcount,
    remember_all (by rw [hmarked]; exact length_filterMap_update?_le d.vars s), List.map_map]
  rfl

/-- A header that declares some variables and gives the values of some. -/
def headerWith (scope : String) (declared given : List Var) (time : UInt64) : List Line :=
  [.version, .timescale, .scope scope] ++ declared.map Var.declaration
    ++ [.upscope, .endOfDefinitions, .stamp time, .startOfValues]
    ++ given.map Var.record ++ [.endOfValues]

theorem writeHeader_ok {d : Dump} {s : Sample}
    (h : (d.writeHeader s.time s.signals).error = none) :
    let given := d.vars ++ declare 0 s.signals
    (d.writeHeader s.time s.signals).dump.started = true ∧
      (d.writeHeader s.time s.signals).dump.vars = given ∧
      (d.writeHeader s.time s.signals).dump.sink.text =
        d.sink.text ++ written (headerWith d.scope (declare 0 s.signals) given s.time) := by
  intro given
  have hlines : d.opening ++ (declare 0 s.signals).map Var.declaration
      ++ [.upscope, .endOfDefinitions, .stamp s.time, .startOfValues]
      ++ given.map Var.record ++ [.endOfValues] =
        headerWith d.scope (declare 0 s.signals) given s.time := rfl
  simp only [given] at hlines
  simp only [writeHeader, hlines] at h ⊢
  split at h
  · cases h
  · rename_i hwritten
    exact ⟨rfl, rfl, (Sink.writeLines_ok hwritten).2⟩

theorem sample_unstarted_ok {d : Dump} {s : Sample} (hstarted : d.started = false)
    (h : (d.sample s.time s.signals).error = none) :
    let given := d.vars ++ declare 0 s.signals
    (d.sample s.time s.signals).dump.started = true ∧
      (d.sample s.time s.signals).dump.vars = given.map (Var.next s) ∧
      (d.sample s.time s.signals).dump.sink.text = d.sink.text ++
        written (headerWith d.scope (declare 0 s.signals) given s.time ++ changes given s) := by
  intro given
  simp only [sample, hstarted, Bool.false_eq_true, if_false] at h ⊢
  cases hheader : (d.writeHeader s.time s.signals).error with
  | some e =>
    simp only [hheader] at h
    cases h
  | none =>
    simp only [hheader] at h ⊢
    obtain ⟨hstarted', hvars, htext⟩ := writeHeader_ok hheader
    obtain ⟨hstill, hnext, hchanges⟩ := writeChanges_ok h
    refine ⟨hstill.trans hstarted', ?_, ?_⟩
    · rw [hnext, hvars]
    · rw [hchanges, htext, hvars, List.append_assoc, ← written_append]

def sampleAll (d : Dump) : List Sample → Option Dump
  | [] => some d
  | s :: rest =>
    let reply := d.sample s.time s.signals
    match reply.error with
    | some _ => none
    | none => reply.dump.sampleAll rest

theorem sampleAll_cons {d d' : Dump} {s : Sample} {rest : List Sample}
    (h : d.sampleAll (s :: rest) = some d') : (d.sample s.time s.signals).error = none ∧
      (d.sample s.time s.signals).dump.sampleAll rest = some d' := by
  rw [sampleAll] at h
  split at h
  · cases h
  · exact ⟨by assumption, h⟩

theorem sampleAll_append (d : Dump) (xs ys : List Sample) :
    d.sampleAll (xs ++ ys) = (d.sampleAll xs).bind fun d' => d'.sampleAll ys := by
  induction xs generalizing d with
  | nil => rfl
  | cons s xs ih =>
    rw [List.cons_append, sampleAll, sampleAll]
    cases (d.sample s.time s.signals).error with
    | none => exact ih _
    | some _ => rfl

theorem sampleAll_started {d d' : Dump} {samples : List Sample} (hstarted : d.started = true)
    (h : d.sampleAll samples = some d') :
    d'.sink.text = d.sink.text ++ written (linesAfter d.vars samples) := by
  induction samples generalizing d with
  | nil =>
    cases h
    exact (List.append_nil _).symm
  | cons s rest ih =>
    obtain ⟨herror, hrest⟩ := sampleAll_cons h
    rw [sample, if_pos hstarted] at herror hrest
    obtain ⟨hstarted', hvars, htext⟩ := writeChanges_ok herror
    rw [ih (hstarted'.trans hstarted) hrest, hvars, htext, List.append_assoc, linesAfter,
      written_append]

/-- The text of a fresh dump: a header, and the lines of all samples behind it. The first sample
stands in both, and its lines correct the values of repeated names. -/
theorem sampleAll_fresh {d d' : Dump} {first : Sample} {later : List Sample}
    (hvars : d.vars = []) (hstarted : d.started = false)
    (h : d.sampleAll (first :: later) = some d') :
    d'.sink.text = d.sink.text ++ written (header d.scope (declare 0 first.signals) first.time
      ++ linesAfter (declare 0 first.signals) (first :: later)) := by
  obtain ⟨herror, hlater⟩ := sampleAll_cons h
  obtain ⟨hstarted', hnext, htext⟩ := sample_unstarted_ok hstarted herror
  rw [hvars, List.nil_append] at hnext htext
  rw [sampleAll_started hstarted' hlater, hnext, htext, List.append_assoc, ← written_append,
    List.append_assoc]
  rfl

/-- Where no name repeats, the first sample stands in the header alone. -/
theorem sampleAll_distinct {d d' : Dump} {first : Sample} {later : List Sample}
    (hvars : d.vars = []) (hstarted : d.started = false)
    (hnames : (first.signals.map Signal.name).Nodup)
    (h : d.sampleAll (first :: later) = some d') :
    d'.sink.text = d.sink.text ++ written (header d.scope (declare 0 first.signals) first.time
      ++ linesAfter (declare 0 first.signals) later) := by
  have hnone := updates_declare hnames
  have hlines : linesAfter (declare 0 first.signals) (first :: later) =
      linesAfter (declare 0 first.signals) later := by
    rw [linesAfter, changes, hnone, map_next_of_updates_nil hnone]
    rfl
  rw [sampleAll_fresh hvars hstarted h, hlines]

theorem writeChanges_unlimited {d : Dump} (h : d.sink.room = none) (s : Sample) :
    (d.writeChanges s.time s.signals).error = none ∧
      (d.writeChanges s.time s.signals).dump.sink.room = none :=
  Sink.writeLines_unlimited h _

theorem writeHeader_unlimited {d : Dump} (h : d.sink.room = none) (s : Sample) :
    (d.writeHeader s.time s.signals).error = none ∧
      (d.writeHeader s.time s.signals).dump.sink.room = none := by
  simp only [writeHeader]
  split
  · rename_i e he
    rw [(Sink.writeLines_unlimited h _).1] at he
    cases he
  · exact ⟨rfl, (Sink.writeLines_unlimited h _).2⟩

theorem sample_unlimited {d : Dump} (h : d.sink.room = none) (s : Sample) :
    (d.sample s.time s.signals).error = none ∧
      (d.sample s.time s.signals).dump.sink.room = none := by
  rw [sample]
  split
  · exact writeChanges_unlimited h s
  · obtain ⟨herror, hroom⟩ := writeHeader_unlimited h s
    simp only [herror]
    exact writeChanges_unlimited hroom s

theorem sampleAll_unlimited {d : Dump} (h : d.sink.room = none) (samples : List Sample) :
    (d.sampleAll samples).isSome := by
  induction samples generalizing d with
  | nil => rfl
  | cons s rest ih =>
    obtain ⟨herror, hroom⟩ := sample_unlimited h s
    simp only [sampleAll, herror]
    exact ih hroom

end Dump
end HexBench.Wave
