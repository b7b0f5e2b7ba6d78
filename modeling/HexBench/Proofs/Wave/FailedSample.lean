import HexBench.Proofs.Wave.FailedHeader

set_option autoImplicit false

namespace HexBench.Wave

namespace Sink

theorem text_writeLines_full {s : Sink} {n : Nat} (hroom : s.room = some n) {lines : List Line}
    (hshort : n < (written lines).length) :
    (s.writeLines (lines.map Line.bytes)).sink.text = s.text ++ (written lines).take n := by
  let unlimited : Sink := { s with room := none }
  have hwithin : s.Within (s.text.length + n) unlimited := ⟨rfl, ⟨n, hroom, rfl⟩, rfl⟩
  have hwhole : (unlimited.writeLines (lines.map Line.bytes)).sink.text = s.text ++ written lines :=
    (writeLines_ok (writeLines_unlimited rfl _).1).2
  have hfull := writeLines_full hroom hshort
  cases (hwithin.writeLines (lines.map Line.bytes)).1 with
  | within herror => rw [hfull] at herror; cases herror
  | cut _ hcut => rw [hcut.text, hwhole, List.take_length_add_append]

end Sink

def recordsAt (time : UInt64) (vars : List Var) : List Line :=
  if vars.isEmpty then [] else .stamp time :: vars.map Var.record

theorem changes_eq (vars : List Var) (s : Sample) :
    changes vars s = recordsAt s.time (vars.filterMap (Var.update? s.signals)) := by
  rw [changes, recordsAt, List.isEmpty_map]

theorem Var.update?_update? {signals : List Signal} {v v' : Var} (h : v.update? signals = some v') :
    v'.update? signals = none := by
  rw [update?] at h
  split at h
  · cases h
  · rename_i now hfind
    split at h
    · cases h
    · cases h
      simp only [update?, hfind, if_true]

section Remember

variable (signals : List Signal) (vars : List Var)

theorem updates_remember (n : Nat) :
    (remember n (vars.map fun v => (v, v.update? signals))).filterMap (Var.update? signals) =
      (vars.filterMap (Var.update? signals)).drop n := by
  induction vars generalizing n with
  | nil => cases n <;> rfl
  | cons v vars ih =>
    rw [List.map_cons]
    cases hupdate : v.update? signals with
    | none =>
      rw [List.filterMap_cons_none hupdate, ← ih n]
      cases n <;> exact List.filterMap_cons_none hupdate
    | some v' =>
      rw [List.filterMap_cons_some hupdate]
      cases n with
      | zero =>
        rw [remember, List.filterMap_cons_some hupdate, ih 0]
        rfl
      | succ n =>
        rw [remember, List.filterMap_cons_none (Var.update?_update? hupdate), ih n,
          List.drop_succ_cons]

theorem mem_remember {n : Nat} {v' : Var}
    (h : v' ∈ (vars.filterMap (Var.update? signals)).take n) :
    v' ∈ remember n (vars.map fun v => (v, v.update? signals)) := by
  induction vars generalizing n with
  | nil => simp at h
  | cons v vars ih =>
    rw [List.map_cons]
    cases hupdate : v.update? signals with
    | none =>
      rw [List.filterMap_cons_none hupdate] at h
      cases n <;> exact List.mem_cons_of_mem v (ih h)
    | some w =>
      rw [List.filterMap_cons_some hupdate] at h
      cases n with
      | zero => cases h
      | succ n =>
        rw [List.take_succ_cons] at h
        rw [remember]
        rcases List.mem_cons.mp h with rfl | h
        · exact List.mem_cons_self
        · exact List.mem_cons_of_mem w (ih h)

end Remember

namespace Dump

theorem writeChanges_full {d : Dump} {n : Nat} (hroom : d.sink.room = some n) {s : Sample}
    (hcut : n < (written (changes d.vars s)).length) :
    let reply := d.writeChanges s.time s.signals
    reply.error = some .full ∧ reply.dump.started = d.started ∧
      reply.dump.sink.text = d.sink.text ++ (written (changes d.vars s)).take n ∧
      ∃ k, reply.dump.vars = remember k (d.vars.map fun v => (v, v.update? s.signals)) ∧
        ∀ j ≤ (changes d.vars s).length,
          j ≤ k ↔ (written ((changes d.vars s).take j)).length ≤ n := by
  intro reply
  have hmarked : (d.vars.map fun v => (v, v.update? s.signals)).filterMap Prod.snd =
      d.vars.filterMap (Var.update? s.signals) := List.filterMap_map
  have hreply : reply = ⟨{ d with
      vars := remember (d.sink.writeLines ((changes d.vars s).map Line.bytes)).count
        (d.vars.map fun v => (v, v.update? s.signals))
      sink := (d.sink.writeLines ((changes d.vars s).map Line.bytes)).sink },
      (d.sink.writeLines ((changes d.vars s).map Line.bytes)).error, []⟩ := by
    simp only [reply, writeChanges, hmarked]
    rfl
  rw [hreply]
  refine ⟨Sink.writeLines_full hroom hcut, rfl, Sink.text_writeLines_full hroom hcut, _, rfl,
    fun j hj => ?_⟩
  rw [Sink.le_count_writeLines hroom (by rwa [List.length_map]), ← List.map_take, written]

/-- Cut in its stamp, a sample remembers no new value. Cut behind it, it wrote some records whole,
began one more, and remembers the values of all of these. -/
theorem cut_updates {d : Dump} {n : Nat} {s : Sample}
    (hcut : n < (written (changes d.vars s)).length) {k : Nat}
    (hk : ∀ j ≤ (changes d.vars s).length,
      j ≤ k ↔ (written ((changes d.vars s).take j)).length ≤ n) :
    (n < (written [.stamp s.time]).length → k = 0) ∧
    ((written [.stamp s.time]).length ≤ n → ∃ whole begun rest,
      d.vars.filterMap (Var.update? s.signals) = whole ++ begun :: rest ∧ k = whole.length + 1 ∧
      (written (.stamp s.time :: whole.map Var.record)).length ≤ n ∧
      n < (written (.stamp s.time :: (whole ++ [begun]).map Var.record)).length) := by
  rw [changes_eq] at hcut hk
  generalize d.vars.filterMap (Var.update? s.signals) = updates at hcut hk ⊢
  cases updates with
  | nil => cases hcut
  | cons first others =>
    have hlines : recordsAt s.time (first :: others) =
        .stamp s.time :: (first :: others).map Var.record := rfl
    generalize first :: others = updates at hlines hcut hk ⊢
    rw [hlines] at hcut hk
    have hlength : (Line.stamp s.time :: updates.map Var.record).length = updates.length + 1 := by
      rw [List.length_cons, List.length_map]
    have hstamp := hk 1 (by omega)
    rw [List.take_succ_cons, List.take_zero] at hstamp
    refine ⟨fun hshort => by omega, fun hfits => ?_⟩
    have hend := hk (updates.length + 1) (by omega)
    rw [← hlength, List.take_length, hlength] at hend
    -- The lines written whole are the stamp and the records in front of the one that was begun.
    obtain ⟨i, rfl⟩ : ∃ i, k = i + 1 := ⟨k - 1, by omega⟩
    have hi : i < updates.length := by omega
    have hwhole := hk (i + 1) (by omega)
    have hbegun := hk (i + 2) (by omega)
    rw [List.take_succ_cons, ← List.map_take] at hwhole hbegun
    rw [List.take_succ_eq_append_getElem hi] at hbegun
    refine ⟨updates.take i, updates[i], updates.drop (i + 1), ?_, ?_, ?_, ?_⟩
    · rw [List.getElem_cons_drop, List.take_append_drop]
    · rw [List.length_take_of_le (Nat.le_of_lt hi)]
    · omega
    · omega

/-- A sample behind the header that is cut after any number of bytes, and the next sample of the
same signals. If not even the stamp was written whole, the next sample gives all values that the
first one failed to give. Otherwise it gives those whose records were not begun: the one whose
record was begun and cut is in the table, and neither sample has written it out. -/
theorem sample_after_failed_sample {d : Dump} (hstarted : d.started = true) {n : Nat}
    (hroom : d.sink.room = some n) {s : Sample}
    (hcut : n < (written (changes d.vars s)).length) :
    let failed := d.sample s.time s.signals
    let updates := d.vars.filterMap (Var.update? s.signals)
    let retried (room : Option Nat) (time : UInt64) :=
      (failed.dump.limited room).sample time s.signals
    failed.error = some .full ∧
    failed.dump.sink.text = d.sink.text ++ (written (changes d.vars s)).take n ∧
    (∀ time, (retried none time).error = none) ∧
    (n < (written [.stamp s.time]).length → ∀ room time, (retried room time).error = none →
      (retried room time).dump.sink.text =
        failed.dump.sink.text ++ written (recordsAt time updates)) ∧
    ((written [.stamp s.time]).length ≤ n → ∃ whole begun rest,
      updates = whole ++ begun :: rest ∧
      (written (.stamp s.time :: whole.map Var.record)).length ≤ n ∧
      n < (written (.stamp s.time :: (whole ++ [begun]).map Var.record)).length ∧
      begun ∈ failed.dump.vars ∧
      ∀ room time, (retried room time).error = none →
        (retried room time).dump.sink.text =
          failed.dump.sink.text ++ written (recordsAt time rest)) := by
  intro failed updates retried
  have hfailed : failed = d.writeChanges s.time s.signals := by
    simp only [failed, sample, if_pos hstarted]
  obtain ⟨herror, hstill, htext, k, hvars, hk⟩ := writeChanges_full hroom hcut
  rw [← hfailed] at herror hstill htext hvars
  have hretried (room : Option Nat) (time : UInt64) (hok : (retried room time).error = none) :
      (retried room time).dump.sink.text =
        failed.dump.sink.text ++ written (recordsAt time (updates.drop k)) := by
    have hholds : (failed.dump.limited room).Holds (failed.dump.vars.map Var.id) :=
      ⟨hstill.trans hstarted, rfl⟩
    have htext := hholds.text_sample (s := ⟨time, s.signals⟩) hok
    rw [changes_eq, show (failed.dump.limited room).vars = _ from hvars, updates_remember] at htext
    exact htext
  obtain ⟨hstamp, hrecords⟩ := cut_updates hcut hk
  refine ⟨herror, htext, fun time => (sample_unlimited rfl ⟨time, s.signals⟩).1, ?_, ?_⟩
  · intro hshort room time hok
    have hall := hretried room time hok
    rwa [hstamp hshort, List.drop_zero] at hall
  · intro hfits
    obtain ⟨whole, begun, rest, hupdates, hcount, hwhole, hbegun⟩ := hrecords hfits
    have hbehind : updates.drop k = rest := by
      rw [show updates = whole ++ begun :: rest from hupdates, hcount,
        List.drop_length_add_append]
      rfl
    refine ⟨whole, begun, rest, hupdates, hwhole, hbegun, ?_, ?_⟩
    · rw [hvars]
      refine mem_remember s.signals d.vars ?_
      rw [hupdates, hcount, List.take_length_add_append]
      exact List.mem_append_right whole List.mem_cons_self
    · intro room time hok
      rw [← hbehind]
      exact hretried room time hok

/-- The record of the counter is cut behind that of the clock, and the next sample gives the flag
alone. -/
theorem sample_after_failed_sample_cut :
    let d : Dump :=
      { scope := "top", started := true, sink := { room := some 9 }
        vars := declare 0 [.bit "clk" false, ⟨"pc", 8, 0⟩, .bit "flag" false] }
    let s : Sample := ⟨5, [.bit "clk" true, ⟨"pc", 8, 5⟩, .bit "flag" true]⟩
    let failed := d.sample s.time s.signals
    let retried := (failed.dump.limited none).sample 10 s.signals
    9 < (written (changes d.vars s)).length ∧ (written [.stamp s.time]).length ≤ 9 ∧
      failed.dump.sink.text = Bytes.ofString "#5\n1!\nb10" ∧
      ⟨⟨"pc", 8, 5⟩, ['"']⟩ ∈ failed.dump.vars ∧
      retried.dump.sink.text = failed.dump.sink.text ++ Bytes.ofString "#10\n1#\n" := by
  intro d s failed retried
  have hcut : 9 < (written (changes d.vars s)).length := by decide +kernel
  have hstamp : (written [.stamp s.time]).length ≤ 9 := by decide +kernel
  obtain ⟨_, htext, hok, _, hrecords⟩ :=
    @sample_after_failed_sample d (by decide) 9 rfl s hcut
  obtain ⟨whole, begun, rest, hupdates, hwhole, hbegun, hmem, hretried⟩ := hrecords hstamp
  have hthree : d.vars.filterMap (Var.update? s.signals) =
      [⟨.bit "clk" true, ['!']⟩, ⟨⟨"pc", 8, 5⟩, ['"']⟩, ⟨.bit "flag" true, ['#']⟩] := by
    decide +kernel
  have hone : whole = [⟨.bit "clk" true, ['!']⟩] ∧ begun = ⟨⟨"pc", 8, 5⟩, ['"']⟩ ∧
      rest = [⟨.bit "flag" true, ['#']⟩] := by
    rw [hthree] at hupdates
    match whole with
    -- The room is enough for the first record, and not for the second one.
    | [] =>
      obtain ⟨rfl, _⟩ := List.cons.inj hupdates
      exact absurd hbegun (by decide +kernel)
    | [_] =>
      simp only [List.cons_append, List.nil_append, List.cons.injEq] at hupdates
      exact ⟨by rw [hupdates.1], hupdates.2.1.symm, hupdates.2.2.symm⟩
    | _ :: _ :: more =>
      simp only [List.cons_append, List.cons.injEq] at hupdates
      obtain ⟨rfl, rfl, hlast⟩ := hupdates
      have hshort : more = [] := by
        cases more with
        | nil => rfl
        | cons w more =>
          have hlength := congrArg List.length hlast
          simp at hlength
      rw [hshort] at hwhole
      exact absurd hwhole (by decide +kernel)
  obtain ⟨rfl, rfl, rfl⟩ := hone
  exact ⟨hcut, hstamp, htext.trans (by decide +kernel), hmem,
    (hretried none 10 (hok 10)).trans (by decide +kernel)⟩

/-- The stamp is written, and the record behind it is not even begun when the sink is full. The next
sample of the same signals takes its value for one that was given. -/
theorem failed_sample_value_lost :
    let signals (clk : Bool) : List Signal := [.bit "clk" clk, .bit "rst_n" true]
    let started := (({ scope := "tb_top" } : Dump).sample 0 (signals false)).dump
    let failed := (started.limited (some 3)).sample 5 (signals true)
    let retried := (failed.dump.limited none).sample 10 (signals true)
    started.started = true ∧ failed.error = some .full ∧ retried.error = none ∧
      failed.dump.sink.text = started.sink.text ++ Bytes.ofString "#5\n" ∧
      retried.dump.sink.text = failed.dump.sink.text ∧
      failed.dump.vars.map Var.signal = signals true := by
  decide +kernel

end Dump
end HexBench.Wave
