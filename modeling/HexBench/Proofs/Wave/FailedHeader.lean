import HexBench.Proofs.Wave.Room

set_option autoImplicit false

namespace HexBench.Wave

def Line.code? : Line → Option (List Char)
  | scalar _ id | vector _ id => some id
  | _ => none

theorem Var.code?_record (v : Var) : v.record.code? = some v.id := by
  rw [record, Line.ofValue]
  split <;> rfl

theorem codes_records (vars : List Var) :
    (vars.map Var.record).filterMap Line.code? = vars.map Var.id := by
  rw [List.filterMap_map, ← List.filterMap_eq_map]
  exact List.filterMap_congr fun v _ => v.code?_record

theorem codes_changes (vars : List Var) (s : Sample) :
    (changes vars s).filterMap Line.code? =
      (vars.filterMap (Var.update? s.signals)).map Var.id := by
  rw [changes]
  cases vars.filterMap (Var.update? s.signals) with
  | nil => rfl
  | cons v rest => exact codes_records (v :: rest)

theorem Var.update?_id {signals : List Signal} {v v' : Var} (h : v.update? signals = some v') :
    v'.id = v.id := by
  rw [← Var.next_of_update? (s := ⟨0, signals⟩) h, Var.next_id]

theorem remember_ids (n : Nat) (vars : List Var) (signals : List Signal) :
    (remember n (vars.map fun v => (v, v.update? signals))).map Var.id = vars.map Var.id := by
  induction vars generalizing n with
  | nil => cases n <;> rfl
  | cons v vars ih =>
    rw [List.map_cons]
    cases hupdate : v.update? signals with
    | none => cases n <;> exact congrArg (v.id :: ·) (ih _)
    | some v' =>
      cases n with
      | zero => exact congrArg (v.id :: ·) (ih 0)
      | succ n =>
        rw [remember, List.map_cons, List.map_cons, ih, Var.update?_id hupdate]

namespace Dump

def limited (d : Dump) (room : Option Nat) : Dump := { d with sink := { d.sink with room } }

/-- What may become of a dump: it takes samples, also ones that fail, has more or less room, and is
closed. -/
inductive Later (d : Dump) : Dump → Prop where
  | refl : Later d d
  | limited {e : Dump} (h : d.Later e) (room : Option Nat) : Later d (e.limited room)
  | sample {e : Dump} (h : d.Later e) (s : Sample) : Later d (e.sample s.time s.signals).dump
  | close {e : Dump} (h : d.Later e) : Later d e.close.dump

structure Holds (ids : List (List Char)) (d : Dump) : Prop where
  started : d.started = true
  ids : d.vars.map Var.id = ids

theorem Holds.sample {ids : List (List Char)} {d : Dump} (h : d.Holds ids) (s : Sample) :
    (d.sample s.time s.signals).dump.Holds ids := by
  rw [Dump.sample, if_pos h.started]
  exact ⟨h.started, (remember_ids _ d.vars s.signals).trans h.ids⟩

theorem Holds.later {ids : List (List Char)} {d e : Dump} (h : d.Holds ids) (hlater : d.Later e) :
    e.Holds ids := by
  induction hlater with
  | refl => exact h
  | limited _ room ih => exact ⟨ih.started, ih.ids⟩
  | sample _ s ih => exact ih.sample s
  | close _ ih => exact ⟨ih.started, ih.ids⟩

theorem Holds.text_sample {ids : List (List Char)} {d : Dump} (h : d.Holds ids) {s : Sample}
    (hok : (d.sample s.time s.signals).error = none) :
    (d.sample s.time s.signals).dump.sink.text = d.sink.text ++ written (changes d.vars s) := by
  rw [Dump.sample, if_pos h.started] at hok ⊢
  exact (writeChanges_ok hok).2.2

theorem Holds.codes_changes {ids : List (List Char)} {d : Dump} (h : d.Holds ids) (s : Sample) :
    ((changes d.vars s).filterMap Line.code?).Sublist ids := by
  rw [Wave.codes_changes, ← h.ids]
  exact updates_sublist s d.vars

theorem writeHeader_full {d : Dump} {n : Nat} (hroom : d.sink.room = some n) (hvars : d.vars = [])
    {s : Sample}
    (hcut : n < (written (header d.scope (declare 0 s.signals) s.time)).length) :
    let reply := d.writeHeader s.time s.signals
    reply.error = some .full ∧ reply.dump.started = d.started ∧ reply.dump.scope = d.scope ∧
      ∃ k, reply.dump.vars = (declare 0 s.signals).take k ∧ ∀ m < s.signals.length,
        m < k ↔ (written (d.opening ++
          ((declare 0 s.signals).take (m + 1)).map Var.declaration)).length ≤ n := by
  intro reply
  have hlines : d.opening ++ (declare 0 s.signals).map Var.declaration
      ++ [.upscope, .endOfDefinitions, .stamp s.time, .startOfValues]
      ++ (declare 0 s.signals).map Var.record ++ [.endOfValues] =
        header d.scope (declare 0 s.signals) s.time := rfl
  have hfull := @Sink.writeLines_full d.sink n hroom _ hcut
  simp only [reply, writeHeader, hvars, List.nil_append, hlines, hfull]
  refine ⟨trivial, trivial, trivial, _, rfl, fun m hm => ?_⟩
  have hlength := declare_length 0 s.signals
  have htake : (header d.scope (declare 0 s.signals) s.time).take (d.opening.length + (m + 1)) =
      d.opening ++ ((declare 0 s.signals).take (m + 1)).map Var.declaration := by
    rw [← hlines]
    simp only [List.append_assoc]
    rw [List.take_length_add_append, List.take_append_of_le_length (by simp; omega), List.map_take]
  rw [← htake]
  have hcount := @Sink.le_count_writeLines d.sink n hroom
    ((header d.scope (declare 0 s.signals) s.time).map Line.bytes) (d.opening.length + (m + 1))
    (by simp [header, opening]; omega)
  rw [← List.map_take] at hcount
  rw [written, ← hcount]
  omega

theorem changes_declared {s : Sample} (hnames : (s.signals.map Signal.name).Nodup) :
    changes (declare 0 s.signals) s = [] := by
  rw [changes, updates_declare hnames]
  rfl

theorem exists_codes_twice {v u : Var} {rest : List Var} (hu : u ∈ rest) (hid : u.id = v.id)
    (hvalue : u.signal.name = v.signal.name → u.signal.value = v.signal.value) :
    ∃ s : Sample, ¬ ((changes (v :: rest) s).filterMap Line.code?).Nodup := by
  let signals : List Signal :=
    [⟨v.signal.name, 1, v.signal.value + 1⟩, ⟨u.signal.name, 1, u.signal.value + 1⟩]
  have hv : ∃ v', v.update? signals = some v' := by
    simp [Var.update?, signals]
  have hu' : ∃ u', u.update? signals = some u' := by
    by_cases hname : u.signal.name = v.signal.name
    · simp [Var.update?, signals, hname, hvalue hname]
    · simp [Var.update?, signals, Ne.symm hname]
  obtain ⟨v', hv⟩ := hv
  obtain ⟨u', hu'⟩ := hu'
  refine ⟨⟨0, signals⟩, fun hnodup => ?_⟩
  rw [codes_changes, List.filterMap_cons_some hv, List.map_cons, List.nodup_cons] at hnodup
  refine hnodup.1 (List.mem_map.mpr ⟨u', List.mem_filterMap.mpr ⟨u, hu, hu'⟩, ?_⟩)
  rw [Var.update?_id hu', Var.update?_id hv, hid]

theorem sample_full {scope : String} {sink : Sink} {n : Nat} (hroom : sink.room = some n)
    {first : Sample}
    (hcut : n < (written (header scope (declare 0 first.signals) first.time)).length) :
    let failed := ({ scope, sink } : Dump).sample first.time first.signals
    failed.error = some .full ∧ failed.dump.started = false ∧ failed.dump.scope = scope ∧
      failed.dump.vars <+: declare 0 first.signals ∧
      ∀ m < first.signals.length, m < failed.dump.vars.length ↔
        (written ([.version, .timescale, .scope scope] ++
          ((declare 0 first.signals).take (m + 1)).map Var.declaration)).length ≤ n := by
  intro failed
  obtain ⟨herror, hstarted, hscope, k, hvars, hwhole⟩ :=
    @writeHeader_full { scope, sink } n hroom rfl first hcut
  have hfailed : failed = ({ scope, sink } : Dump).writeHeader first.time first.signals := by
    simp only [failed, sample, Bool.false_eq_true, if_false, herror]
  rw [hfailed]
  refine ⟨herror, hstarted, hscope, ?_, fun m hm => ?_⟩
  · rw [hvars]
    exact List.take_prefix k _
  · rw [hvars, List.length_take, declare_length, Nat.lt_min]
    exact (and_iff_left hm).trans (hwhole m hm)

theorem exists_codes_twice_of_left {left : List Var} {first again : Sample}
    (hleft : left <+: declare 0 first.signals) (hsome : left ≠ []) (hagain : again.signals ≠ []) :
    let given := left ++ declare 0 again.signals
    ¬ (given.map Var.id).Nodup ∧ ∃ s : Sample,
      ¬ ((changes (given.map (Var.next again)) s).filterMap Line.code?).Nodup := by
  intro given
  obtain ⟨v, left, rfl⟩ := List.exists_cons_of_ne_nil hsome
  obtain ⟨signal, signals, hsignals⟩ := List.exists_cons_of_ne_nil hagain
  have hv : v.id = identifier 0 := by
    cases hfirst : first.signals with
    | nil =>
      rw [hfirst] at hleft
      cases List.prefix_nil.mp hleft
    | cons signal signals =>
      rw [hfirst, declare, List.cons_prefix_cons] at hleft
      rw [hleft.1]
  let u : Var := ⟨signal, identifier 0⟩
  have hu : u ∈ left ++ declare 0 again.signals := by
    rw [hsignals]
    exact List.mem_append_right left List.mem_cons_self
  have hvalue : again.value? signal.name = some signal.value := by
    simp only [Sample.value?, hsignals, List.find?_cons, beq_self_eq_true, Option.map_some]
  constructor
  · intro hnodup
    simp only [given, List.cons_append, List.map_cons, List.nodup_cons] at hnodup
    exact hnodup.1 (List.mem_map.mpr ⟨u, hu, hv.symm⟩)
  · refine exists_codes_twice (List.mem_map_of_mem hu) ?_ ?_
    · rw [Var.next_id, Var.next_id, hv]
    · -- Both have the value that their common name has in the sample.
      intro hname
      simp only [Var.next_eq] at hname ⊢
      rw [← hname, hvalue]
      rfl

/-- A header that is cut after any number of bytes leaves the variables in the table whose
declarations were written whole. The next sample writes a header that declares its own signals, and
gives the values of all that are in the table, under their codes. If no declaration was written, it
gives one value to each signal that it declares, all codes are different, and no later sample gives
two values to one of them, whatever happens in between. If a declaration was, the first code is
given twice, and a later sample can give two values to one code. -/
theorem sample_after_failed_header {scope : String} {sink : Sink} {n : Nat}
    (hroom : sink.room = some n) {first : Sample}
    (hcut : n < (written (header scope (declare 0 first.signals) first.time)).length) :
    let failed := ({ scope, sink } : Dump).sample first.time first.signals
    let left := failed.dump.vars
    failed.error = some .full ∧ left <+: declare 0 first.signals ∧
    (∀ m < first.signals.length, m < left.length ↔
      (written ([.version, .timescale, .scope scope] ++
        ((declare 0 first.signals).take (m + 1)).map Var.declaration)).length ≤ n) ∧
    ∀ (room : Option Nat) (again : Sample),
      let declared := declare 0 again.signals
      let given := left ++ declared
      let retried := (failed.dump.limited room).sample again.time again.signals
      (room = none → retried.error = none) ∧
      (retried.error = none →
        retried.dump.sink.text = failed.dump.sink.text ++
          written (headerWith scope declared given again.time ++ changes given again) ∧
        (left = [] →
          given = declared ∧ (declared.map Var.id).Nodup ∧
          ((again.signals.map Signal.name).Nodup → changes given again = []) ∧
          ∀ d, retried.dump.Later d → ∀ s : Sample, (d.sample s.time s.signals).error = none →
            (d.sample s.time s.signals).dump.sink.text =
              d.sink.text ++ written (changes d.vars s) ∧
            ((changes d.vars s).filterMap Line.code?).Nodup ∧
            ∀ code ∈ (changes d.vars s).filterMap Line.code?, code ∈ declared.map Var.id) ∧
        (left ≠ [] → again.signals ≠ [] →
          ¬ (given.map Var.id).Nodup ∧
          ∃ d, retried.dump.Later d ∧ ∃ s : Sample, (d.sample s.time s.signals).error = none ∧
            (d.sample s.time s.signals).dump.sink.text =
              d.sink.text ++ written (changes d.vars s) ∧
            ¬ ((changes d.vars s).filterMap Line.code?).Nodup)) := by
  intro failed left
  obtain ⟨herror, hstarted, hscope, hleft, hwhole⟩ := sample_full hroom hcut
  refine ⟨herror, hleft, hwhole, fun room again => ?_⟩
  intro declared given retried
  refine ⟨fun hfree => ?_, fun hok => ?_⟩
  · subst hfree
    exact (sample_unlimited rfl again).1
  obtain ⟨hbegun, hvars, htext⟩ := sample_unstarted_ok (d := failed.dump.limited room) hstarted hok
  have hholds : retried.dump.Holds (given.map Var.id) := by
    refine ⟨hbegun, ?_⟩
    rw [hvars]
    exact Var.map_next_id again given
  refine ⟨?_, fun hnone => ?_, fun hsome hagain => ?_⟩
  · rw [show (failed.dump.limited room).scope = scope from hscope] at htext
    exact htext
  · have hgiven : given = declared := by
      rw [show given = left ++ declared from rfl, hnone, List.nil_append]
    rw [hgiven] at hholds ⊢
    have hnodup : (declared.map Var.id).Nodup := declare_nodup again.signals
    refine ⟨rfl, hnodup, changes_declared, fun d hd s hs => ?_⟩
    have hd := hholds.later hd
    have hcodes := hd.codes_changes s
    exact ⟨hd.text_sample hs, hcodes.nodup hnodup, fun code hcode => hcodes.subset hcode⟩
  · obtain ⟨htwice, s, hs⟩ := exists_codes_twice_of_left hleft hsome hagain
    -- The sink gets all the room again, so that the later sample is sure to succeed.
    have hfree : (retried.dump.limited none).Holds (given.map Var.id) :=
      ⟨hholds.started, hholds.ids⟩
    have hok' := (sample_unlimited (d := retried.dump.limited none) rfl s).1
    refine ⟨htwice, retried.dump.limited none, .limited .refl none, s, hok',
      hfree.text_sample hok', ?_⟩
    rw [show (retried.dump.limited none).vars = given.map (Var.next again) from hvars]
    exact hs

/-- The header is cut in the first declaration, and behind the second one. -/
theorem sample_after_failed_header_cuts :
    let first : Sample := ⟨0, [.bit "clk" false, .bit "rst_n" true]⟩
    let again : Sample := ⟨5, first.signals⟩
    let later : Sample := ⟨10, [.bit "clk" true]⟩
    let declared := declare 0 again.signals
    let early := ({ scope := "tb_top", sink := { room := some 90 } } : Dump).sample
      first.time first.signals
    let late := ({ scope := "tb_top", sink := { room := some 130 } } : Dump).sample
      first.time first.signals
    let retried := (early.dump.limited none).sample again.time again.signals
    early.error = some .full ∧ retried.error = none ∧
      retried.dump.sink.text = early.dump.sink.text ++
        written (headerWith "tb_top" declared declared again.time) ∧
      ((changes retried.dump.vars later).filterMap Line.code?).Nodup ∧
      ¬ ((late.dump.vars ++ declared).map Var.id).Nodup := by
  intro first again later declared early late retried
  obtain ⟨herror, _, _, hretry⟩ := @sample_after_failed_header "tb_top" { room := some 90 } 90 rfl
    first (by decide +kernel)
  obtain ⟨hfree, hwritten⟩ := hretry none again
  obtain ⟨htext, hearly, _⟩ := hwritten (hfree rfl)
  obtain ⟨hgiven, _, hchanges, hlater⟩ := hearly (by decide +kernel)
  rw [hchanges (by decide +kernel), List.append_nil, hgiven] at htext
  obtain ⟨_, _, _, hretry'⟩ := @sample_after_failed_header "tb_top" { room := some 130 } 130 rfl
    first (by decide +kernel)
  obtain ⟨hfree', hwritten'⟩ := hretry' none again
  obtain ⟨_, _, hlate⟩ := hwritten' (hfree' rfl)
  simp only [early, late, retried, declared]
  exact ⟨herror, hfree rfl, htext, (hlater _ .refl later (by decide +kernel)).2.1,
    (hlate (by decide +kernel) (by decide +kernel)).1⟩

/-- A header is cut behind its declarations. The next one gives two values to each code, and so does
the sample behind it. -/
theorem failed_header_values_twice :
    let signals (clk : Bool) : List Signal := [.bit "clk" clk, .bit "rst_n" true]
    let failed :=
      ({ scope := "tb_top", sink := { room := some 130 } } : Dump).sample 0 (signals false)
    let retried := (failed.dump.limited none).sample 5 (signals false)
    let later := retried.dump.sample 10 (signals true)
    failed.error = some .full ∧ retried.error = none ∧ later.error = none ∧
      retried.dump.sink.text = failed.dump.sink.text ++ Bytes.ofString
        ("$version archtest-dpi 0.1.0 $end\n$timescale 1ps $end\n$scope module tb_top $end\n"
          ++ "$var wire 1 ! clk $end\n$var wire 1 \" rst_n $end\n"
          ++ "$upscope $end\n$enddefinitions $end\n#5\n"
          ++ "$dumpvars\n0!\n1\"\n0!\n1\"\n$end\n") ∧
      later.dump.sink.text = retried.dump.sink.text ++ Bytes.ofString "#10\n1!\n1!\n" := by
  decide +kernel

end Dump
end HexBench.Wave
