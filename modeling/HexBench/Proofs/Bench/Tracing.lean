import HexBench.Design.Fetcher
import HexBench.Proofs.Bench.Run

set_option autoImplicit false

/-!
# A run with a trace and a run without one

The two runs go side by side: their journals differ in what belongs to the trace, and nothing else
on the two benches differs, whatever the trace does.
-/

namespace HexBench

open Wave (Tracer Recorder Dump)
open Bench (Action Call Event callActions resetEdges replyActions signalsActions)

namespace Bench

def Call.ofTrace : Call → Bool
  | .signals | .sample .. | .close => true
  | _ => false

def Event.isTraceFailure : Event → Bool
  | .sampleFailed .. | .closeFailed .. => true
  | _ => false

def Action.isTraceFailure : Action → Bool
  | .event e => e.isTraceFailure
  | _ => false

/-- What would not be in the journal if there were no trace. -/
def Action.ofTrace : Action → Bool
  | .call c => c.ofTrace
  | .event e => e.isTraceFailure
  | .signalsLog _ | .traceLog _ | .traceText _ => true
  | .designLog _ => false

def untraced (actions : List Action) : List Action := actions.filter fun a => !a.ofTrace

def Journal.without (j : Journal) (p : Action → Bool) : Journal := j.filter fun a => !p a

theorem Journal.toList_without (j : Journal) (p : Action → Bool) :
    (j.without p).toList = j.toList.filter fun a => !p a := Array.toList_filter

theorem untraced_append (xs ys : List Action) : untraced (xs ++ ys) = untraced xs ++ untraced ys :=
  List.filter_append xs ys

theorem untraced_flatMap {ι : Type} (indices : List ι) (actions : ι → List Action) :
    untraced (indices.flatMap actions) = indices.flatMap fun i => untraced (actions i) :=
  List.filter_flatMap

theorem untraced_replyActions {τ : Type} {c : Call} (h : c.ofTrace = true)
    (r : Wave.TraceReply τ) : untraced (replyActions c r) = [] := by
  simp [untraced, replyActions, Action.ofTrace, h]

theorem untraced_signalsActions (log : List LogEntry) : untraced (signalsActions log) = [] := by
  simp [untraced, signalsActions, Action.ofTrace, Call.ofTrace]

theorem untraced_designLog (log : List LogEntry) :
    untraced (log.map .designLog) = log.map .designLog := by
  simp [untraced, Action.ofTrace]

theorem untraced_callActions {c : Call} (h : c.ofTrace = false) (log : List LogEntry) :
    untraced (callActions c log) = callActions c log := by
  simp [untraced, callActions, Action.ofTrace, h]

end Bench

variable {σ τ : Type} [Design σ]

namespace Design

theorem untraced_edgeActions (s : σ) : Bench.untraced (edgeActions s) = edgeActions s := by
  rw [edgeActions, Bench.untraced_append, Bench.untraced_append, Bench.untraced_designLog,
    Bench.untraced_callActions rfl, Bench.untraced_callActions rfl]

theorem untraced_resetActions (s : σ) : Bench.untraced (resetActions s) = resetActions s := by
  have hheld : Bench.untraced (heldActions s) = heldActions s := by
    rw [heldActions, Bench.untraced_append, Bench.untraced_callActions rfl,
      Bench.untraced_callActions rfl]
  have hedges : Bench.untraced (edgesActions resetEdges (held s)) =
      edgesActions resetEdges (held s) := by
    simp only [edgesActions, Bench.untraced_flatMap, untraced_edgeActions]
  have hreleased : Bench.untraced (releaseActions s) = releaseActions s :=
    Bench.untraced_callActions rfl _
  rw [resetActions, Bench.untraced_append, Bench.untraced_append, Bench.untraced_append, hheld,
    hedges, hreleased]
  rfl

end Design

variable [Tracer τ]

namespace Rig

def bare (r : Rig σ τ) : Rig σ τ := { r with trace := none }

theorem untraced_sampleActions (time : UInt64) (r : Rig σ τ) :
    Bench.untraced (r.sampleActions time) = [] := by
  cases htrace : r.trace with
  | none => simp [sampleActions, reply?, htrace, Bench.untraced]
  | some trace =>
    let reply := Tracer.sample time (Design.signals r.design).answer trace
    have hreply : r.reply? time = some reply := by rw [reply?, htrace]; rfl
    have hfailure : Bench.untraced (reply.failure.map fun cause =>
        Action.event (.sampleFailed time cause)).toList = [] := by
      cases reply.failure <;> rfl
    simp only [sampleActions, hreply]
    rw [Bench.untraced_append, Bench.untraced_append, Bench.untraced_signalsActions,
      Bench.untraced_replyActions rfl, hfailure]
    rfl

theorem sampled_design (hsignals : ∀ s : σ, (Design.signals s).design = s) (time : UInt64)
    (r : Rig σ τ) : (r.sampled time).design = r.design := by
  rw [sampled]
  cases r.reply? time with
  | none => rfl
  | some reply => exact hsignals r.design

theorem untraced_periodActions (hsignals : ∀ s : σ, (Design.signals s).design = s) (time : UInt64)
    (r : Rig σ τ) : Bench.untraced (r.periodActions time) = r.bare.periodActions time := by
  have hbare : r.bare.clocked.sampleActions time = [] := rfl
  have hasked : r.bare.design = r.design := rfl
  have hsampled : (r.clocked.sampled time).design = (r.bare.clocked.sampled time).design :=
    sampled_design hsignals time r.clocked
  rw [periodActions, Bench.untraced_append, Bench.untraced_append, Bench.untraced_append,
    untraced_sampleActions, Bench.untraced_callActions rfl, Bench.untraced_callActions rfl,
    Design.untraced_edgeActions, periodActions, hbare, hsampled, hasked]

theorem next_bare (hsignals : ∀ s : σ, (Design.signals s).design = s) (time : UInt64)
    (r : Rig σ τ) : r.bare.next time = (r.next time).bare := by
  have hdesign := sampled_design hsignals time r.clocked
  have hsampled : r.bare.clocked.sampled time = r.clocked.bare := rfl
  rw [next, next, hsampled]
  simp only [bare, hdesign]

end Rig

namespace Bench

/-- A bench next to one that has no trace, and is the same but for that. -/
structure Shadows (b bare : Bench σ τ) : Prop where
  design : b.design = bare.design
  trace : bare.trace = none
  time : b.time = bare.time
  limit : b.limit = bare.limit
  phase : b.phase = bare.phase
  journal : untraced b.journal.toList = bare.journal.toList

omit [Design σ] [Tracer τ] in
theorem Shadows.moved {b bare : Bench σ τ} (h : b.Shadows bare) (design : σ) (trace : Option τ)
    {actions bareActions : List Action} (hactions : untraced actions = bareActions) :
    (b.moved design trace actions).Shadows (bare.moved design none bareActions) where
  design := rfl
  trace := rfl
  time := h.time
  limit := h.limit
  phase := h.phase
  journal := by
    simp only [Bench.moved, Array.toList_appendList, untraced_append, h.journal, hactions]

omit [Design σ] [Tracer τ] in
theorem Shadows.note {b bare : Bench σ τ} (h : b.Shadows bare) {a : Action}
    (ha : a.ofTrace = false) : (b.note a).Shadows (bare.note a) where
  design := h.design
  trace := h.trace
  time := h.time
  limit := h.limit
  phase := h.phase
  journal := by
    have hlast : untraced [a] = [a] := by simp [untraced, ha]
    simp only [Bench.note, Array.toList_push, untraced_append, h.journal, hlast]

omit [Design σ] [Tracer τ] in
theorem Shadows.inPhase {b bare : Bench σ τ} (h : b.Shadows bare) (phase : Phase) :
    ({ b with phase } : Bench σ τ).Shadows { bare with phase } :=
  ⟨h.design, h.trace, h.time, h.limit, rfl, h.journal⟩

omit [Design σ] [Tracer τ] in
theorem Shadows.atTime {b bare : Bench σ τ} (h : b.Shadows bare) (time : UInt64) :
    ({ b with time } : Bench σ τ).Shadows { bare with time } :=
  ⟨h.design, h.trace, rfl, h.limit, h.phase, h.journal⟩

omit [Design σ] [Tracer τ] in
theorem Shadows.rig {b bare : Bench σ τ} (h : b.Shadows bare) : bare.rig = b.rig.bare := by
  simp only [Bench.rig, Rig.bare, h.design, h.trace]

omit [Tracer τ] in
theorem Shadows.reset {b bare : Bench σ τ} (h : b.Shadows bare) : b.reset.Shadows bare.reset := by
  rw [reset_eq, reset_eq, ← h.design, h.trace]
  exact (h.inPhase .running).moved _ _ (Design.untraced_resetActions b.design)

omit [Design σ] [Tracer τ] in
theorem Shadows.watch {b bare : Bench σ τ} (h : b.Shadows bare) : b.watch.Shadows bare.watch := by
  -- Both benches have the same time and limit, so both are watched with the same result.
  rcases b.watch_cases with ⟨hintime, hwatch⟩ | ⟨limit, hlimit, hlate, hwatch⟩
  · rw [hwatch, watch_of_inTime (hintime.of_eq h.limit h.time)]
    exact h
  · have hsame : Action.event (.watchdog bare.time limit) = .event (.watchdog b.time limit) := by
      rw [h.time]
    rw [hwatch, watch_of_late (h.limit.symm.trans hlimit) (h.time ▸ hlate), hsame]
    exact (h.inPhase .timeout).note rfl

theorem Shadows.step (hsignals : ∀ s : σ, (Design.signals s).design = s) {b bare : Bench σ τ}
    (h : b.Shadows bare) : b.step.Shadows bare.step := by
  by_cases hrunning : b.phase = .running
  · have hbare : bare.phase = .running := h.phase.symm.trans hrunning
    cases hfinished : (Design.finished b.design).answer with
    | true =>
      have hbareFinished : (Design.finished bare.design).answer = true := h.design ▸ hfinished
      rw [step_of_finished hrunning hfinished, step_of_finished hbare hbareFinished, ← h.design,
        h.trace]
      exact (h.inPhase .finished).moved _ _ (untraced_callActions rfl _)
    | false =>
      have hbareFinished : (Design.finished bare.design).answer = false := h.design ▸ hfinished
      rw [step_of_period hrunning hfinished, step_of_period hbare hbareFinished, h.rig,
        Rig.next_bare hsignals, ← h.time]
      exact ((h.atTime (b.time + halfPeriod)).moved _ _
        (Rig.untraced_periodActions hsignals b.time b.rig)).watch
  · have hbare : ¬ bare.phase = .running := fun hbare => hrunning (h.phase.trans hbare)
    simp only [Bench.step, if_neg hrunning, if_neg hbare]
    exact h

theorem Shadows.steps (hsignals : ∀ s : σ, (Design.signals s).design = s) {b bare : Bench σ τ}
    (h : b.Shadows bare) (n : Nat) : (Bench.step^[n] b).Shadows (Bench.step^[n] bare) := by
  induction n with
  | zero => exact h
  | succ n ih =>
    rw [Function.iterate_succ_apply', Function.iterate_succ_apply']
    exact ih.step hsignals

theorem Shadows.runFor (hsignals : ∀ s : σ, (Design.signals s).design = s) {b bare : Bench σ τ}
    (h : b.Shadows bare) (fuel : Nat) : (Bench.runFor fuel b).Shadows (Bench.runFor fuel bare) := by
  induction fuel generalizing b bare with
  | zero => exact h
  | succ fuel ih =>
    have hstep := h.step hsignals
    simp only [Bench.runFor, hstep.phase]
    split
    · exact ih hstep
    · exact hstep

theorem Shadows.run (hsignals : ∀ s : σ, (Design.signals s).design = s) {b bare : Bench σ τ}
    (h : b.Shadows bare) : b.run.Shadows bare.run := by
  rw [Bench.run, Bench.run, h.time]
  exact h.runFor hsignals (stepsLeft bare.time)

theorem untraced_closeActions (trace : Option τ) : untraced (closeActions trace) = [] := by
  cases trace with
  | none => rfl
  | some trace =>
    have hfailure : untraced ((Tracer.close trace).failure.map fun cause =>
        Action.event (.closeFailed cause)).toList = [] := by
      cases (Tracer.close trace).failure <;> rfl
    rw [closeActions, untraced_append, untraced_replyActions rfl, hfailure]
    rfl

omit [Design σ] in
theorem Shadows.finish {b bare : Bench σ τ} (h : b.Shadows bare) :
    b.finish.Shadows bare.finish := by
  have hactions : untraced (closeActions b.trace ++ [.event (.ended b.phase b.time)]) =
      [.event (.ended bare.phase bare.time)] := by
    rw [untraced_append, untraced_closeActions, h.phase, h.time]
    rfl
  rw [finish_eq, finish_eq, ← h.design, h.trace]
  exact h.moved _ _ hactions

theorem simulate_shadows (hsignals : ∀ s : σ, (Design.signals s).design = s) (design : σ)
    (trace : τ) (limit : Option UInt64) :
    (simulate design (some trace) limit).Shadows (simulate design none limit) := by
  have hcreated : ({ design, trace := some trace, limit } : Bench σ τ).Shadows
      { design, trace := none, limit } := ⟨rfl, rfl, rfl, rfl, rfl, rfl⟩
  exact (hcreated.reset.run hsignals).finish

/-- A trace changes nothing in a run but what it is itself the cause of: the looks at the signals,
its own calls, the reports of its failures, and what it logs and writes itself. -/
theorem simulate_untraced (hsignals : ∀ s : σ, (Design.signals s).design = s) (design : σ)
    (trace : τ) (limit : Option UInt64) :
    let started (trace : Option τ) : Bench σ τ := ({ design, trace, limit } : Bench σ τ).reset
    let traced := simulate design (some trace) limit
    let bare := simulate (τ := τ) design none limit
    (∀ n, (step^[n] (started (some trace))).design = (step^[n] (started none)).design ∧
      (step^[n] (started (some trace))).phase = (step^[n] (started none)).phase ∧
      (step^[n] (started (some trace))).time = (step^[n] (started none)).time) ∧
    traced.design = bare.design ∧ traced.phase = bare.phase ∧ traced.time = bare.time ∧
    traced.journal.without Action.ofTrace = bare.journal := by
  intro started traced bare
  have hcreated : ({ design, trace := some trace, limit } : Bench σ τ).Shadows
      { design, trace := none, limit } := ⟨rfl, rfl, rfl, rfl, rfl, rfl⟩
  have hstarted : (started (some trace)).Shadows (started none) := hcreated.reset
  have hended : traced.Shadows bare := (hstarted.run hsignals).finish
  refine ⟨fun n => ?_, hended.design, hended.phase, hended.time, ?_⟩
  · have hsteps := hstarted.steps hsignals n
    exact ⟨hsteps.design, hsteps.phase, hsteps.time⟩
  · apply Array.toList_inj.mp
    rw [Journal.toList_without]
    exact hended.journal

/-- The recorder refuses its second sample, at time 5, and the run still takes its three half
periods. -/
theorem simulate_untraced_refused :
    let design : PlainFetcher := ⟨{ rule := { edges := some 2 } }⟩
    let traced := simulate design (some ({ refused := some 2 } : Recorder)) (some 100)
    let bare := simulate (τ := Recorder) design none (some 100)
    (∀ s : PlainFetcher, (Design.signals s).design = s) ∧
    .event (.sampleFailed 5 "recorder refused dump 2") ∈ traced.journal.toList ∧
    traced.phase = bare.phase ∧ traced.time = bare.time ∧ bare.time = 15 ∧
    traced.journal.without Action.ofTrace = bare.journal := by
  intro design traced bare
  obtain ⟨_, _, hphase, htime, hjournal⟩ := simulate_untraced (τ := Recorder)
    (fun _ : PlainFetcher => rfl) design { refused := some 2 } (some 100)
  exact ⟨fun _ => rfl, by decide +kernel, hphase, htime, by decide +kernel, hjournal⟩

/-- Both runs log the same, apart from the failures of the trace. -/
def LogsAlike (design : σ) (trace : τ) (limit : Option UInt64) : Prop :=
  ((simulate design (some trace) limit).journal.without Action.isTraceFailure).entries =
    (simulate (τ := τ) design none limit).journal.entries

end Bench

/-- A fetcher that logs how often it was evaluated whenever it is asked for its signals. -/
structure LoudFetcher where
  inner : Fetcher

instance : Design LoudFetcher where
  setClock level f := (⟨f.inner.setClock level⟩, [])
  clock f := { answer := f.inner.clock, design := f }
  setReset level f := (⟨{ f.inner with reset := level }⟩, [])
  reset f := { answer := f.inner.reset, design := f }
  evaluate f := (⟨f.inner.evaluate.1⟩, f.inner.evaluate.2)
  finished f := { answer := f.inner.isFinished, design := f }
  signals f :=
    { answer := f.inner.signals
      design := f
      log := [⟨.trace, "fetcher", toString f.inner.evaluations ++ " evaluations"⟩] }

namespace Bench

/-- A dump logs that its header is written, and a design may log what it is asked for its signals.
Neither is a failure, and neither question changes the designs. -/
theorem not_logsAlike :
    let rule : FinishRule := { edges := some 1 }
    (∀ s : PlainFetcher, (Design.signals s).design = s ∧ (Design.finished s).design = s) ∧
    ¬ LogsAlike (⟨{ rule }⟩ : PlainFetcher) ({ scope := "tb_top" } : Dump) none ∧
    (∀ s : LoudFetcher, (Design.signals s).design = s ∧ (Design.finished s).design = s) ∧
    ¬ LogsAlike (⟨{ rule }⟩ : LoudFetcher) ({} : Recorder) none := by
  intro rule
  refine ⟨fun _ => ⟨rfl, rfl⟩, fun halike => ?_, fun _ => ⟨rfl, rfl⟩, fun halike => ?_⟩
  · have hlengths := congrArg List.length halike
    revert hlengths
    decide +kernel
  · have hlengths := congrArg List.length halike
    revert hlengths
    decide +kernel

end Bench
end HexBench
