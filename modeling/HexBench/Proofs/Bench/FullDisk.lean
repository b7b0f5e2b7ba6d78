import HexBench.Proofs.Bench.Output
import HexBench.Proofs.Bench.Tracing
import HexBench.Proofs.Wave.Room

set_option autoImplicit false

/-!
# A run with a full disk

A dump on a limited sink and a dump on an unlimited one go through a run in lockstep until a sample
no longer fits. From there on the first run has no trace, and the text of the second only grows.
-/

namespace HexBench

open Wave (Dump Signal Sink Tracer TraceReply)
open Bench (Action)

namespace Bench

variable {σ : Type}

/-- All text that left the trace of the bench is in the sink of its dump. -/
structure Writes (b : Bench σ Dump) (d : Dump) : Prop where
  trace : b.trace = some d
  text : b.journal.text = d.sink.text

variable {b c : Bench σ Dump} {d e : Dump} {n : Nat}

theorem Writes.silent {after : Bench σ Dump} (h : b.Writes d) (hsilent : b.Silent after) :
    after.Writes d := ⟨hsilent.trace.trans h.trace, hsilent.text.trans h.text⟩

/-- One bench lost its trace over a sample that did not fit, and the other one goes on writing. -/
structure Parted (n : Nat) (b c : Bench σ Dump) : Prop where
  trace : b.trace = none
  failures : b.journal.sampleFailures = 1
  sinks : ∃ (s : Sink) (e : Dump), b.journal.text = s.text ∧ c.Writes e ∧ e.sink.room = none ∧
    s.Cut n e.sink

theorem Parted.silent {b' c' : Bench σ Dump} (h : b.Parted n c) (hb : b.Silent b')
    (hc : c.Silent c') : b'.Parted n c' := by
  obtain ⟨s, e, htext, hwrites, hroom, hcut⟩ := h.sinks
  exact ⟨hb.trace.trans h.trace, hb.failures.trans h.failures,
    s, e, hb.text.trans htext, hwrites.silent hc, hroom, hcut⟩

/-- Two benches that differ in nothing but the limit of a sink, which is not used up. -/
structure Lockstep (n : Nat) (b c : Bench σ Dump) : Prop where
  design : b.design = c.design
  time : b.time = c.time
  limit : b.limit = c.limit
  phase : b.phase = c.phase
  journal : b.journal = c.journal
  failures : b.journal.sampleFailures = 0
  dumps : ∃ d e : Dump, b.Writes d ∧ c.Writes e ∧ d.Within n e

theorem Lockstep.moved (h : b.Lockstep n c) {actions : List Action} (hquiet : Quiet actions)
    (design : σ) (phase : Phase) :
    ({ b with phase }.moved design b.trace actions).Lockstep n
      ({ c with phase }.moved design c.trace actions) := by
  obtain ⟨d, e, hb, hc, hwithin⟩ := h.dumps
  have hsilent := hquiet.silent b design phase
  exact ⟨rfl, h.time, h.limit, rfl, congrArg (fun j : Journal => j ++ actions) h.journal,
    hsilent.failures.trans h.failures, d, e, hb.silent hsilent,
    hc.silent (hquiet.silent c design phase), hwithin⟩

theorem Lockstep.watch (h : b.Lockstep n c) : b.watch.Lockstep n c.watch := by
  rcases b.watch_cases with ⟨hintime, hwatch⟩ | ⟨limit, hlimit, hlate, hwatch⟩
  · rw [hwatch, watch_of_inTime (hintime.of_eq h.limit h.time)]
    exact h
  · have hc : c.watch = { c with phase := .timeout }.moved b.design c.trace
        [.event (.watchdog b.time limit)] := by
      rw [watch_of_late (h.limit.symm.trans hlimit) (h.time ▸ hlate), h.design, h.time]
    rw [hwatch, hc]
    exact h.moved (quiet_watchdog b.time limit) b.design .timeout

theorem alike_of_within (hwithin : d.Within n e) {time : UInt64} {signals : List Signal}
    (hdump : (d.sample time signals).dump.Within n (e.sample time signals).dump)
    (hd : (d.sample time signals).error = none) (he : (e.sample time signals).error = none)
    (hevents : (d.sample time signals).events = (e.sample time signals).events) :
    Alike (Tracer.sample time signals d) (Tracer.sample time signals e) where
  failure := congrArg (Option.map _) (hd.trans he.symm)
  log := congrArg (List.map Wave.Event.entry) hevents
  pieces := by
    change Sink.piecesFrom _ d.sink.pieces.size = Sink.piecesFrom _ e.sink.pieces.size
    rw [Sink.piecesFrom, Sink.piecesFrom, hdump.sink.pieces, hwithin.sink.pieces]

/-- What the first of two benches has of the text of the second. -/
structure TakesFirst (n : Nat) (b c : Bench σ Dump) : Prop where
  text : b.journal.text = c.journal.text.take n
  failures_le : b.journal.sampleFailures ≤ 1
  failures : b.journal.sampleFailures = 1 ↔ n < c.journal.text.length

theorem Lockstep.takesFirst (h : b.Lockstep n c) : b.TakesFirst n c := by
  obtain ⟨d, e, hb, hc, hwithin⟩ := h.dumps
  obtain ⟨r, _, hroom⟩ := hwithin.sink.room
  have hlength : c.journal.text.length ≤ n := by
    rw [hc.text, ← hwithin.sink.text]
    omega
  have hfailures := h.failures
  refine ⟨?_, by omega, by omega⟩
  rw [h.journal, List.take_of_length_le hlength]

theorem Parted.takesFirst (h : b.Parted n c) : b.TakesFirst n c := by
  obtain ⟨s, e, htext, hwrites, _, hcut⟩ := h.sinks
  have hshort := hcut.short
  have hfailures := h.failures
  rw [← hwrites.text] at hshort
  refine ⟨?_, by omega, by omega⟩
  rw [htext, hcut.text, hwrites.text]

theorem silent_closeActions (trace : Option Dump) : textOf (closeActions trace) = [] ∧
    (closeActions trace).countP Action.isSampleFailure = 0 := by
  cases trace with
  | none => exact ⟨rfl, rfl⟩
  | some d =>
    have hpieces : (Tracer.close d).pieces = [] := by
      change Sink.piecesFrom d.sink d.sink.pieces.size = []
      simp [Sink.piecesFrom]
    have hfailed : Quiet ((Tracer.close d).failure.map fun cause =>
        Action.event (.closeFailed cause)).toList := by
      cases (Tracer.close d).failure <;> simp [Quiet, Action.isOutput]
    rw [closeActions, textOf_append, List.countP_append, textOf_replyActions,
      countP_replyActions, hpieces, hfailed.textOf, hfailed.countP]
    exact ⟨rfl, rfl⟩

theorem quiet_ended (phase : Phase) (time : UInt64) : Quiet [.event (.ended phase time)] := by
  simp [Quiet, Action.isOutput]

theorem finish_text (b : Bench σ Dump) : b.finish.journal.text = b.journal.text ∧
    b.finish.journal.sampleFailures = b.journal.sampleFailures := by
  have hended := quiet_ended b.phase b.time
  obtain ⟨htext, hfailures⟩ := silent_closeActions b.trace
  rw [finish_eq, text_moved, sampleFailures_moved, textOf_append, List.countP_append, htext,
    hfailures, hended.textOf, hended.countP]
  exact ⟨List.append_nil _, rfl⟩

theorem TakesFirst.finish (h : b.TakesFirst n c) : b.finish.TakesFirst n c.finish := by
  obtain ⟨htext, hfailures⟩ := b.finish_text
  obtain ⟨htext', _⟩ := c.finish_text
  constructor
  · rw [htext, htext', h.text]
  · rw [hfailures]
    exact h.failures_le
  · rw [hfailures, htext']
    exact h.failures

variable [Design σ]

def shown {τ : Type} (b : Bench σ τ) : List Signal := (Design.signals b.rig.clocked.design).answer

theorem Writes.reply? (h : b.Writes d) :
    b.rig.clocked.reply? b.time = some (Tracer.sample b.time b.shown d) := by
  rw [Rig.reply?, Rig.clocked, rig, h.trace]
  rfl

theorem Writes.text_afterPeriod (h : b.Writes d) :
    b.afterPeriod.journal.text = (d.sample b.time b.shown).dump.sink.text := by
  rw [afterPeriod, text_moved, Rig.textOf_periodActions, Rig.textOf_sampleActions h.reply?,
    (d.sample_grows b.time b.shown).text]
  exact congrArg (· ++ _) h.text

theorem Writes.failures_afterPeriod (h : b.Writes d) :
    b.afterPeriod.journal.sampleFailures = b.journal.sampleFailures
      + if (d.sample b.time b.shown).error.isSome then 1 else 0 := by
  rw [afterPeriod, sampleFailures_moved, Rig.countP_periodActions,
    Rig.countP_sampleActions h.reply?]
  change _ + (if (Option.map _ (d.sample b.time b.shown).error).isSome then 1 else 0) = _
  rw [Option.isSome_map]

theorem Writes.trace_afterPeriod (h : b.Writes d) : b.afterPeriod.trace =
    if (d.sample b.time b.shown).error.isSome then none
    else some (d.sample b.time b.shown).dump := by
  change (b.rig.clocked.sampled b.time).trace = _
  rw [Rig.sampled_of_reply? h.reply?]
  change (if (Option.map _ (d.sample b.time b.shown).error).isSome then none else _) = _
  rw [Option.isSome_map]
  rfl

theorem Writes.afterPeriod_ok (h : b.Writes d) (hok : (d.sample b.time b.shown).error = none) :
    b.afterPeriod.Writes (d.sample b.time b.shown).dump := by
  refine ⟨?_, h.text_afterPeriod⟩
  rw [h.trace_afterPeriod, hok]
  rfl

theorem Writes.step_unlimited (h : b.Writes d) (hroom : d.sink.room = none) :
    ∃ d', b.step.Writes d' ∧ d'.sink.room = none ∧ d.sink.Grows d'.sink := by
  rcases b.step_silent_or with hsilent | hsilent
  · exact ⟨d, h.silent hsilent, hroom, Sink.Grows.refl d.sink⟩
  · obtain ⟨hok, hroom'⟩ := Dump.sample_unlimited hroom ⟨b.time, b.shown⟩
    exact ⟨_, (h.afterPeriod_ok hok).silent hsilent, hroom', d.sample_grows b.time b.shown⟩

theorem Parted.step_left (h : b.Parted n c) : b.step.Parted n c :=
  h.silent (step_silent h.trace) (Silent.refl c)

theorem Parted.step_right (h : b.Parted n c) : b.Parted n c.step := by
  obtain ⟨s, e, htext, hwrites, hroom, hcut⟩ := h.sinks
  obtain ⟨e', hwrites', hroom', hgrows⟩ := hwrites.step_unlimited hroom
  exact ⟨h.trace, h.failures, s, e', htext, hwrites', hroom', hcut.grows hgrows⟩

/-- The two benches need not take the same number of steps from here on. -/
theorem Parted.runFor (h : b.Parted n c) (fuel fuel' : Nat) :
    (Bench.runFor fuel b).Parted n (Bench.runFor fuel' c) := by
  have hleft := runFor_keeps (P := fun b => b.Parted n c) (fun _ h => h.step_left) h fuel
  exact runFor_keeps (P := (Bench.runFor fuel b).Parted n) (fun _ h => h.step_right) hleft fuel'

theorem Lockstep.reset (h : b.Lockstep n c) : b.reset.Lockstep n c.reset := by
  rw [reset_eq, reset_eq, ← h.design]
  exact h.moved (Design.quiet_resetActions b.design) _ .running

theorem Lockstep.shown (h : b.Lockstep n c) : b.shown = c.shown := by
  simp only [Bench.shown, Rig.clocked, rig, h.design]

theorem Lockstep.afterPeriod (h : b.Lockstep n c) :
    b.afterPeriod.Lockstep n c.afterPeriod ∨ b.afterPeriod.Parted n c.afterPeriod := by
  obtain ⟨d, e, hb, hc, hwithin⟩ := h.dumps
  obtain ⟨he, hroom⟩ := Dump.sample_unlimited hwithin.sink.unlimited ⟨c.time, c.shown⟩
  have hcAfter := hc.afterPeriod_ok he
  have hbReply := hb.reply?
  have hbText := hb.text_afterPeriod
  have hbTrace := hb.trace_afterPeriod
  have hbFailures := hb.failures_afterPeriod
  rw [h.time, h.shown] at hbReply hbText hbTrace hbFailures
  rw [h.failures] at hbFailures
  cases hwithin.sample c.time c.shown with
  | within herror hdump hevents =>
    have halike := alike_of_within hwithin hdump herror he hevents
    have hactions : b.rig.periodActions b.time = c.rig.periodActions c.time := by
      rw [h.time]
      exact Rig.periodActions_of_alike h.design hbReply hc.reply? halike
    have hdesign : (b.rig.next b.time).design = (c.rig.next c.time).design := by
      rw [Rig.next_design hb.reply?, Rig.next_design hc.reply?]
      simp only [Rig.clocked, rig, h.design]
    have hjournal : b.journal ++ b.rig.periodActions b.time =
        c.journal ++ c.rig.periodActions c.time := by rw [h.journal, hactions]
    rw [herror] at hbTrace hbFailures
    exact .inl ⟨hdesign, congrArg (· + halfPeriod) h.time, h.limit, h.phase, hjournal, hbFailures,
      _, _, ⟨hbTrace, hbText⟩, hcAfter, hdump⟩
  -- The first bench gives up its trace, and from here on its sink is known to the relation alone.
  | cut herror hcut =>
    rw [herror] at hbTrace hbFailures
    exact .inr ⟨hbTrace, hbFailures, _, _, hbText, hcAfter, hroom, hcut⟩

theorem Lockstep.step (h : b.Lockstep n c) :
    b.step.Lockstep n c.step ∨ b.step.Parted n c.step := by
  by_cases hrunning : b.phase = .running
  · have hc : c.phase = .running := h.phase.symm.trans hrunning
    cases hfinished : (Design.finished b.design).answer with
    | true =>
      have hcFinished : (Design.finished c.design).answer = true := h.design ▸ hfinished
      rw [step_of_finished hrunning hfinished, step_of_finished hc hcFinished, ← h.design]
      exact .inl (h.moved (quiet_callActions _ _) _ .finished)
    | false =>
      have hcFinished : (Design.finished c.design).answer = false := h.design ▸ hfinished
      rw [step_of_period hrunning hfinished, step_of_period hc hcFinished, ← Bench.afterPeriod,
        ← Bench.afterPeriod]
      rcases h.afterPeriod with hlockstep | hparted
      · exact .inl hlockstep.watch
      · exact .inr (hparted.silent b.afterPeriod.watch_silent c.afterPeriod.watch_silent)
  · have hc : c.phase ≠ .running := fun hc => hrunning (h.phase.trans hc)
    rw [step_of_ended hrunning, step_of_ended hc]
    exact .inl h

theorem Lockstep.runFor (h : b.Lockstep n c) (fuel : Nat) :
    (Bench.runFor fuel b).Lockstep n (Bench.runFor fuel c) ∨
      (Bench.runFor fuel b).Parted n (Bench.runFor fuel c) := by
  induction fuel generalizing b c with
  | zero => exact .inl h
  | succ fuel ih =>
    rw [runFor_succ, runFor_succ]
    rcases h.step with hlockstep | hparted
    · exact ih hlockstep
    · exact .inr (hparted.runFor fuel fuel)

theorem Lockstep.run (h : b.Lockstep n c) :
    b.run.Lockstep n c.run ∨ b.run.Parted n c.run := by
  rw [Bench.run, Bench.run, h.time]
  exact h.runFor (stepsLeft c.time)

theorem Writes.run (h : b.Writes d) (hroom : d.sink.room = none) :
    ∃ d', b.run.Writes d' ∧ d'.sink.room = none := by
  have hstep (b : Bench σ Dump) (hwrites : ∃ d, b.Writes d ∧ d.sink.room = none) :
      ∃ d, b.step.Writes d ∧ d.sink.room = none := by
    obtain ⟨d, hwrites, hroom⟩ := hwrites
    obtain ⟨d', hwrites', hroom', _⟩ := hwrites.step_unlimited hroom
    exact ⟨d', hwrites', hroom'⟩
  exact runFor_keeps (P := fun b => ∃ d, b.Writes d ∧ d.sink.room = none) hstep ⟨d, h, hroom⟩
    (stepsLeft b.time)

theorem simulate_closes (design : σ) {d : Dump} (hroom : d.sink.room = none)
    (hempty : d.sink.text = []) (limit : Option UInt64) :
    ∃ before after, (simulate design (some d) limit).journal.toList =
      before ++ .call .close :: after ∧ textOf after = [] := by
  let start : Bench σ Dump := { design, trace := some d, limit }
  have hstart : start.Writes d := ⟨rfl, hempty.symm⟩
  obtain ⟨d', hwrites, _⟩ := (hstart.silent start.reset_silent).run hroom
  obtain ⟨hclose, _⟩ := silent_closeActions (some d')
  have hended := quiet_ended start.reset.run.phase start.reset.run.time
  refine ⟨start.reset.run.journal.toList, (closeActions (some d')).tail
    ++ [.event (.ended start.reset.run.phase start.reset.run.time)], ?_, ?_⟩
  · have hfinish : simulate design (some d) limit = start.reset.run.finish := rfl
    rw [hfinish, finish_eq, hwrites.trace]
    exact Array.toList_appendList
  · rw [textOf_append, hended.textOf, List.append_nil]
    exact hclose

/-- A disk with room for a number of bytes is left with that many bytes of the text that an
unlimited disk would have taken, or with all of it. One sample is reported to have failed where the
text is longer, and none where it is not. If looking at the signals does not change the design,
nothing else in the run is different. -/
theorem simulate_full_disk (design : σ) (scope : String) (n : Nat) (refusesFlush : Bool)
    (limit : Option UInt64) :
    let limited : Dump := { scope, sink := { room := some n, refusesFlush } }
    let unlimited : Dump := { scope }
    let cut := simulate design (some limited) limit
    let whole := simulate design (some unlimited) limit
    cut.journal.text = whole.journal.text.take n ∧
      cut.journal.sampleFailures ≤ 1 ∧
      (cut.journal.sampleFailures = 1 ↔ n < whole.journal.text.length) ∧
      ((∀ s : σ, (Design.signals s).design = s) →
        cut.design = whole.design ∧ cut.phase = whole.phase ∧ cut.time = whole.time ∧
        cut.journal.without Action.ofTrace = whole.journal.without Action.ofTrace) := by
  intro limited unlimited cut whole
  have hwithin : limited.Within n unlimited :=
    ⟨rfl, rfl, rfl, ⟨rfl, ⟨n, rfl, Nat.zero_add n⟩, rfl⟩⟩
  have hnew : ({ design, trace := some limited, limit } : Bench σ Dump).Lockstep n
      { design, trace := some unlimited, limit } :=
    ⟨rfl, rfl, rfl, rfl, rfl, rfl, limited, unlimited, ⟨rfl, rfl⟩, ⟨rfl, rfl⟩, hwithin⟩
  have hfirst : cut.TakesFirst n whole := by
    rcases hnew.reset.run with hlockstep | hparted
    · exact hlockstep.takesFirst.finish
    · exact hparted.takesFirst.finish
  refine ⟨hfirst.text, hfirst.failures_le, hfirst.failures, fun hsignals => ?_⟩
  have hcut := simulate_shadows hsignals design limited limit
  have hwhole := simulate_shadows hsignals design unlimited limit
  refine ⟨hcut.design.trans hwhole.design.symm, hcut.phase.trans hwhole.phase.symm,
    hcut.time.trans hwhole.time.symm, ?_⟩
  apply Array.toList_inj.mp
  rw [Journal.toList_without, Journal.toList_without]
  exact hcut.journal.trans hwhole.journal.symm

/-- The room ends in the second line of the header, or in the value of the second sample, and the
run still takes its three half periods. -/
theorem simulate_full_disk_in_lines :
    let design : PlainFetcher := ⟨{ rule := { edges := some 2 } }⟩
    let cut (n : Nat) :=
      simulate design (some ({ scope := "tb_top", sink := { room := some n } } : Dump)) none
    (∀ s : PlainFetcher, (Design.signals s).design = s) ∧
      (cut 40).journal.text = Bytes.ofString "$version archtest-dpi 0.1.0 $end\n$timesc" ∧
      (cut 40).journal.sampleFailures = 1 ∧ (cut 40).phase = .finished ∧ (cut 40).time = 15 ∧
      (cut 190).journal.text = Bytes.ofString ("$version archtest-dpi 0.1.0 $end\n"
        ++ "$timescale 1ps $end\n$scope module tb_top $end\n$var wire 1 ! clk $end\n"
        ++ "$var wire 1 \" rst_n $end\n$upscope $end\n$enddefinitions $end\n"
        ++ "#0\n$dumpvars\n1!\n1\"\n$end\n#5\n0") ∧
      (cut 190).journal.sampleFailures = 1 ∧ (cut 190).phase = .finished ∧ (cut 190).time = 15 := by
  intro design cut
  obtain ⟨hheader, _, hheaderFails, hrest⟩ := simulate_full_disk design "tb_top" 40 false none
  obtain ⟨_, hphase, htime, _⟩ := hrest fun _ => rfl
  obtain ⟨hstamp, _, hstampFails, hrest'⟩ := simulate_full_disk design "tb_top" 190 false none
  obtain ⟨_, hphase', htime', _⟩ := hrest' fun _ => rfl
  exact ⟨fun _ => rfl, hheader.trans (by decide +kernel), hheaderFails.mpr (by decide +kernel),
    hphase.trans (by decide +kernel), htime.trans (by decide +kernel),
    hstamp.trans (by decide +kernel), hstampFails.mpr (by decide +kernel),
    hphase'.trans (by decide +kernel), htime'.trans (by decide +kernel)⟩

end Bench
end HexBench
