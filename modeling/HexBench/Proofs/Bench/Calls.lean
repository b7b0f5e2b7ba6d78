import HexBench.Design.Fetcher
import HexBench.Proofs.Bench.Run

set_option autoImplicit false

namespace HexBench

open Wave (Tracer Recorder)
open Bench (Action Call halfPeriod resetEdges replyActions)

namespace Bench

def Action.call? : Action → Option Call
  | .call c => some c
  | _ => none

def callsOf (actions : List Action) : List Call := actions.filterMap Action.call?

theorem Journal.calls_eq (j : Journal) : j.calls = callsOf j.toList := by
  have hcall : (fun | .call c => some c | _ => none) = Action.call? := by
    funext action
    cases action <;> rfl
  exact congrArg (fun f => j.toList.filterMap f) hcall

@[simp] theorem callsOf_nil : callsOf [] = [] := rfl

@[simp] theorem callsOf_call (c : Call) (actions : List Action) :
    callsOf (.call c :: actions) = c :: callsOf actions := rfl

@[simp] theorem callsOf_event (e : Event) (actions : List Action) :
    callsOf (.event e :: actions) = callsOf actions := rfl

@[simp] theorem callsOf_traceText (pieces : List Bytes) (actions : List Action) :
    callsOf (.traceText pieces :: actions) = callsOf actions := rfl

@[simp] theorem callsOf_append (xs ys : List Action) :
    callsOf (xs ++ ys) = callsOf xs ++ callsOf ys := List.filterMap_append

theorem callsOf_flatMap {ι : Type} (indices : List ι) (actions : ι → List Action) :
    callsOf (indices.flatMap actions) = indices.flatMap fun i => callsOf (actions i) :=
  List.filterMap_flatMap

@[simp] theorem callsOf_designLog (log : List LogEntry) : callsOf (log.map .designLog) = [] := by
  induction log with
  | nil => rfl
  | cons _ _ ih => exact ih

@[simp] theorem callsOf_signalsLog (log : List LogEntry) : callsOf (log.map .signalsLog) = [] := by
  induction log with
  | nil => rfl
  | cons _ _ ih => exact ih

@[simp] theorem callsOf_callActions (c : Call) (log : List LogEntry) :
    callsOf (callActions c log) = [c] := by
  rw [callActions, callsOf_call, callsOf_designLog]

@[simp] theorem callsOf_signalsActions (log : List LogEntry) :
    callsOf (signalsActions log) = [.signals] := by
  rw [signalsActions, callsOf_call, callsOf_signalsLog]

@[simp] theorem callsOf_traceLog (log : List LogEntry) : callsOf (log.map .traceLog) = [] := by
  induction log with
  | nil => rfl
  | cons _ _ ih => exact ih

@[simp] theorem callsOf_failure (failure : Option String) (event : String → Event) :
    callsOf (failure.map fun cause => Action.event (event cause)).toList = [] := by
  cases failure <;> rfl

theorem calls_moved {σ τ : Type} (b : Bench σ τ) (design : σ) (trace : Option τ)
    (actions : List Action) :
    (b.moved design trace actions).journal.calls = b.journal.calls ++ callsOf actions := by
  rw [Journal.calls_eq, Journal.calls_eq, ← callsOf_append]
  simp only [moved, Array.toList_appendList]

end Bench

variable {σ τ : Type} [Design σ]

namespace Design

def edgeCalls (s : σ) : List Call := [.setClock (!(clock s).answer), .evaluate]

def edgesCalls (n : Nat) (s : σ) : List Call :=
  (List.range n).flatMap fun k => edgeCalls (edge^[k] s)

def resetCalls (s : σ) : List Call :=
  [.setReset false, .evaluate] ++ edgesCalls 10 (held s) ++ [.setReset true]

theorem callsOf_edgeActions (s : σ) : Bench.callsOf (edgeActions s) = edgeCalls s := by
  simp [edgeActions, edgeCalls]

theorem callsOf_resetActions (s : σ) : Bench.callsOf (resetActions s) = resetCalls s := by
  have hedges : Bench.callsOf (edgesActions resetEdges (held s)) = edgesCalls 10 (held s) := by
    simp only [edgesActions, Bench.callsOf_flatMap, callsOf_edgeActions, edgesCalls, resetEdges]
  simp [resetActions, heldActions, hedges, releaseActions, resetCalls]

/-- Calls that lead a design from one state to another, in which the answers are those that the
design gives in the state that it is in. -/
inductive Leads : σ → List Call → σ → Prop where
  | nil (s : σ) : Leads s [] s
  | setReset {s after : σ} {calls : List Call} (level : Bool)
      (h : Leads (Design.setReset level s).1 calls after) : Leads s (.setReset level :: calls) after
  | toggle {s after : σ} {calls : List Call} (h : Leads (toggled s) calls after) :
      Leads s (.setClock (!(clock s).answer) :: calls) after
  | evaluate {s after : σ} {calls : List Call} (h : Leads (Design.evaluate s).1 calls after) :
      Leads s (.evaluate :: calls) after
  | finished {s after : σ} {calls : List Call} (h : Leads (asked s) calls after) :
      Leads s (.finished (Design.finished s).answer :: calls) after
  | sample {s after : σ} {calls : List Call} (time : UInt64)
      (h : Leads (signals s).design calls after) :
      Leads s (.signals :: .sample time (signals s).answer :: calls) after
  | advance {s after : σ} {calls : List Call} (delta : UInt64)
      (h : Leads (Design.advance delta s).1 calls after) : Leads s (.advance delta :: calls) after

theorem Leads.trans {s u v : σ} {calls calls' : List Call} (h : Leads s calls u)
    (h' : Leads u calls' v) : Leads s (calls ++ calls') v := by
  induction h with
  | nil => exact h'
  | setReset level _ ih => exact .setReset level (ih h')
  | toggle _ ih => exact .toggle (ih h')
  | evaluate _ ih => exact .evaluate (ih h')
  | finished _ ih => exact .finished (ih h')
  | sample time _ ih => exact .sample time (ih h')
  | advance delta _ ih => exact .advance delta (ih h')

theorem leads_edges (n : Nat) (s : σ) : Leads s (edgesCalls n s) (edge^[n] s) := by
  induction n with
  | zero => exact .nil s
  | succ n ih =>
    have hedge : Leads (edge^[n] s) (edgeCalls (edge^[n] s)) (edge (edge^[n] s)) :=
      .toggle (.evaluate (.nil _))
    rw [Function.iterate_succ_apply', edgesCalls, List.range_succ, List.flatMap_append,
      List.flatMap_singleton]
    exact ih.trans hedge

theorem leads_reset (s : σ) : Leads s (resetCalls s) (released s) := by
  have hheld : Leads s [.setReset false, .evaluate] (held s) :=
    .setReset false (.evaluate (.nil _))
  exact (hheld.trans (leads_edges 10 (held s))).trans (.setReset true (.nil _))

end Design

namespace Rig

variable [Tracer τ]

def sampleCalls (time : UInt64) (r : Rig σ τ) : List Call :=
  if r.trace.isSome then [.signals, .sample time (Design.signals r.design).answer] else []

def periodCalls (time : UInt64) (r : Rig σ τ) : List Call :=
  [.finished false] ++ Design.edgeCalls (Design.asked r.design) ++ r.clocked.sampleCalls time
    ++ [.advance 5]

def Fails (time : UInt64) (r : Rig σ τ) : Prop :=
  ∃ reply, r.clocked.reply? time = some reply ∧ reply.failure.isSome

theorem callsOf_sampleActions (time : UInt64) (r : Rig σ τ) :
    Bench.callsOf (r.sampleActions time) = r.sampleCalls time := by
  cases htrace : r.trace with
  | none => simp [sampleActions, sampleCalls, reply?, htrace]
  | some trace => simp [sampleActions, sampleCalls, reply?, htrace, replyActions]

theorem callsOf_periodActions (time : UInt64) (r : Rig σ τ) :
    Bench.callsOf (r.periodActions time) = r.periodCalls time := by
  simp [periodActions, periodCalls, Design.callsOf_edgeActions, callsOf_sampleActions, halfPeriod]

theorem callsOf_periodsActions (r : Rig σ τ) (n : Nat) :
    Bench.callsOf (r.periodsActions n) =
      (List.range n).flatMap fun k => (r.after k).periodCalls (Bench.timeAfter k) := by
  simp only [periodsActions, Bench.callsOf_flatMap, callsOf_periodActions]

theorem leads_sampled (time : UInt64) (r : Rig σ τ) :
    Design.Leads r.design (r.sampleCalls time) (r.sampled time).design := by
  cases htrace : r.trace with
  | none => simpa [sampled, reply?, sampleCalls, htrace] using Design.Leads.nil r.design
  | some trace =>
    simpa [sampled, reply?, sampleCalls, htrace] using Design.Leads.sample time (.nil _)

theorem leads_period {r : Rig σ τ} (hfinished : (Design.finished r.design).answer = false)
    (time : UInt64) : Design.Leads r.design (r.periodCalls time) (r.next time).design := by
  have hasked : Design.Leads r.design [.finished false] (Design.asked r.design) := by
    rw [← hfinished]
    exact .finished (.nil _)
  have hclocked := hasked.trans (Design.leads_edges 1 (Design.asked r.design))
  exact (hclocked.trans (r.clocked.leads_sampled time)).trans (.advance 5 (.nil _))

theorem next_trace (time : UInt64) (r : Rig σ τ) :
    (r.next time).trace.isSome ↔ r.trace.isSome ∧ ¬ r.Fails time := by
  have hclocked : r.clocked.trace = r.trace := rfl
  cases htrace : r.trace with
  | none => simp [next, sampled, reply?, hclocked, htrace]
  | some trace =>
    have hreply : ∃ reply, r.clocked.reply? time = some reply := by
      simp [reply?, hclocked, htrace]
    obtain ⟨reply, hreply⟩ := hreply
    cases hfailure : reply.failure <;> simp [next, sampled, Fails, hreply, hfailure]

theorem after_trace (r : Rig σ τ) (n : Nat) :
    (r.after n).trace.isSome ↔
      r.trace.isSome ∧ ∀ k < n, ¬ (r.after k).Fails (Bench.timeAfter k) := by
  induction n with
  | zero => simp [after]
  | succ n ih =>
    rw [after, next_trace, ih, Nat.forall_lt_succ_right, and_assoc]

end Rig

namespace Bench

variable [Tracer τ]

theorem callsOf_closeActions (trace : Option τ) :
    callsOf (closeActions trace) = if trace.isSome then [.close] else [] := by
  cases trace <;> simp [closeActions, replyActions]

theorem Ending.calls {b b' : Bench σ τ} (h : b.Ending (stepsLeft 0) b')
    (hrunning : b.phase = .running) (hended : b'.phase ≠ .running) :
    ∃ n, 5 * n < 2 ^ 64 ∧ b'.time.toNat = 5 * n ∧
      (b'.phase = .finished ∧ (Design.finished (b.rig.after n).design).answer = true ∨
        b'.phase = .timeout ∧ ∃ limit, b.limit = some limit ∧ limit < b'.time) ∧
      b'.trace = (b.rig.after n).trace ∧
      b'.journal.calls = b.journal.calls
        ++ (List.range n).flatMap (fun k => (b.rig.after k).periodCalls (timeAfter k))
        ++ if b'.phase = .finished then [.finished true] else [] := by
  have hcalls (n : Nat) (phase : Phase) : { b.afterPeriods n with phase }.journal.calls =
      b.journal.calls
        ++ (List.range n).flatMap fun k => (b.rig.after k).periodCalls (timeAfter k) := by
    have hmoved := calls_moved { b with time := timeAfter n } (b.rig.after n).design
      (b.rig.after n).trace (b.rig.periodsActions n)
    rw [Rig.callsOf_periodsActions] at hmoved
    exact hmoved
  cases h with
  | @finished n hbound _ hfinished =>
    have hfits := lt_of_lt_stepsLeft hbound
    refine ⟨n, hfits, timeAfter_toNat hfits, .inl ⟨rfl, hfinished⟩, rfl, ?_⟩
    rw [calls_moved, hcalls, callsOf_callActions]
    rfl
  | @timeout n limit hbound hlasts _ hlimit hlate =>
    have hfits := timeout_fits hbound hlasts hlimit hlate
    refine ⟨n + 1, hfits, timeAfter_toNat hfits, .inr ⟨rfl, limit, hlimit, hlate⟩, rfl, ?_⟩
    rw [calls_moved, hcalls]
    rfl
  | running => exact absurd hrunning hended

/-- All calls of a run that ends: reset, one half period after the other, the answer that ends it,
and the close of a trace of which no sample failed. A trace that failed is left alone, and the run
goes on to the end that the design or the limit gives it. -/
theorem calls_simulate (design : σ) (trace : Option τ) (limit : Option UInt64)
    (hended : (simulate design trace limit).phase ≠ .running) :
    let start : Rig σ τ := ⟨Design.released design, trace⟩
    let ended := simulate design trace limit
    ∃ n, 5 * n < 2 ^ 64 ∧ ended.time.toNat = 5 * n ∧
      (ended.phase = .finished ∧ (Design.finished (start.after n).design).answer = true ∨
        ended.phase = .timeout ∧ ∃ m, limit = some m ∧ m < ended.time) ∧
      ended.journal.calls = Design.resetCalls design
        ++ (List.range n).flatMap (fun k => (start.after k).periodCalls (timeAfter k))
        ++ (if ended.phase = .finished then [.finished true] else [])
        ++ (if (start.after n).trace.isSome then [.close] else []) ∧
      ∀ k, (start.after k).trace.isSome ↔
        trace.isSome ∧ ∀ j < k, ¬ (start.after j).Fails (timeAfter j) := by
  intro start ended
  let released := ({ design, trace, limit } : Bench σ τ).reset
  have hreleased : released = _ := reset_eq _
  have hrunning : released.phase = .running := by rw [hreleased]; rfl
  have htime : released.time = 0 := by rw [hreleased]; rfl
  have hrig : released.rig = start := by rw [hreleased]; rfl
  have hlimit : released.limit = limit := by rw [hreleased]; rfl
  have hresetCalls : released.journal.calls = Design.resetCalls design := by
    rw [hreleased, calls_moved, Design.callsOf_resetActions]
    rfl
  have hended_eq : ended = released.run.moved released.run.design none
      (closeActions released.run.trace
        ++ [.event (.ended released.run.phase released.run.time)]) := finish_eq released.run
  have hphase : ended.phase = released.run.phase := by rw [hended_eq]; rfl
  have htime' : ended.time = released.run.time := by rw [hended_eq]; rfl
  have hcloseCalls : ended.journal.calls =
      released.run.journal.calls ++ if released.run.trace.isSome then [.close] else [] := by
    rw [hended_eq, calls_moved, callsOf_append, callsOf_closeActions, callsOf_event, callsOf_nil,
      List.append_nil]
  have hrun := run_ending hrunning htime
  obtain ⟨n, hfits, htime, hphases, htrace, hcalls⟩ := hrun.calls hrunning (hphase ▸ hended)
  rw [hrig] at hphases htrace hcalls
  rw [hlimit] at hphases
  rw [hresetCalls, ← hphase] at hcalls
  refine ⟨n, hfits, ?_, ?_, ?_, start.after_trace⟩
  · rw [htime', htime]
  · rw [hphase, htime']
    exact hphases
  · rw [hcloseCalls, hcalls, htrace]

theorem calls_simulate_refused :
    let design : PlainFetcher := ⟨{ rule := { edges := some 2 } }⟩
    let recorder : Recorder := { refused := some 2 }
    let ended := simulate design (some recorder) none
    ended.phase ≠ .running ∧ ended.journal.calls = Design.resetCalls design ++
      [.finished false, .setClock true, .evaluate, .signals,
        .sample 0 [.bit "clk" true, .bit "rst_n" true], .advance 5,
        .finished false, .setClock false, .evaluate, .signals,
        .sample 5 [.bit "clk" false, .bit "rst_n" true], .advance 5,
        .finished false, .setClock true, .evaluate, .advance 5, .finished true] := by
  intro design recorder ended
  have hended : ended.phase ≠ .running := by decide +kernel
  obtain ⟨n, _, htime, _, hcalls, _⟩ := calls_simulate design (some recorder) none hended
  have hfifteen : 5 * n = 15 := htime.symm.trans (by decide +kernel)
  obtain rfl : n = 3 := by omega
  exact ⟨hended, hcalls.trans (by decide +kernel)⟩

end Bench
end HexBench
