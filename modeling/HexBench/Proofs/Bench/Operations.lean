import HexBench.Proofs.Bench.Steps
import Mathlib.Algebra.Group.Even
import Mathlib.Algebra.GroupWithZero.Nat

set_option autoImplicit false

namespace HexBench

open Wave (Tracer Recorder)

namespace Bench

inductive Operation where
  | reset
  | step
  | run
  deriving DecidableEq

namespace Call

def delta? : Call → Option UInt64
  | advance delta => some delta
  | _ => none

def sampleTime? : Call → Option UInt64
  | sample time _ => some time
  | _ => none

def asksFinished : Call → Bool
  | finished _ => true
  | _ => false

def setsClock : Call → Bool
  | setClock _ => true
  | _ => false

def isIdle : Call → Bool
  | advance _ | sample .. | finished false => false
  | _ => true

end Call

namespace Journal

/-- By how much the design was told each time that time goes on. -/
def deltas (j : Journal) : List UInt64 := j.calls.filterMap Call.delta?

def sampleTimes (j : Journal) : List UInt64 := j.calls.filterMap Call.sampleTime?

end Journal

section Idle

variable {calls : List Call}

theorem count_of_idle (h : ∀ c ∈ calls, c.isIdle = true) {c : Call} (hc : c.isIdle = false) :
    calls.count c = 0 :=
  List.count_eq_zero.mpr fun hmem => Bool.false_ne_true (hc.symm.trans (h c hmem))

theorem deltas_of_idle (h : ∀ c ∈ calls, c.isIdle = true) : calls.filterMap Call.delta? = [] := by
  rw [List.filterMap_eq_nil_iff]
  intro c hc
  cases c with
  | advance delta => cases h _ hc
  | _ => rfl

theorem sampleTimes_of_idle (h : ∀ c ∈ calls, c.isIdle = true) :
    calls.filterMap Call.sampleTime? = [] := by
  rw [List.filterMap_eq_nil_iff]
  intro c hc
  cases c with
  | sample time signals => cases h _ hc
  | _ => rfl

end Idle

end Bench

variable {σ τ : Type}

namespace Bench

/-- Bench, design and trace agree on the time, counted in half periods. -/
structure KeepsTime (b : Bench σ τ) : Prop where
  time : b.time = timeAfter b.journal.halfPeriods
  deltas : b.journal.deltas = List.replicate b.journal.halfPeriods halfPeriod
  unfinished : b.journal.calls.count (.finished false) = b.journal.halfPeriods
  samples : ∃ ks : List Nat, ks.Sublist (List.range b.journal.halfPeriods) ∧
    b.journal.sampleTimes = ks.map timeAfter
  late : b.phase = .timeout → ∃ limit, b.limit = some limit ∧ limit < b.time

theorem KeepsTime.of_idle {b after : Bench σ τ} (h : b.KeepsTime) {calls : List Call}
    (hcalls : after.journal.calls = b.journal.calls ++ calls)
    (hidle : ∀ c ∈ calls, c.isIdle = true) (htime : after.time = b.time)
    (hlate : after.phase = .timeout → ∃ limit, after.limit = some limit ∧ limit < after.time) :
    after.KeepsTime := by
  have hhalf : after.journal.halfPeriods = b.journal.halfPeriods := by
    rw [Journal.halfPeriods, hcalls, List.count_append, count_of_idle hidle rfl, Nat.add_zero,
      Journal.halfPeriods]
  constructor
  · rw [htime, hhalf, h.time]
  · rw [hhalf, ← h.deltas, Journal.deltas, hcalls, List.filterMap_append, deltas_of_idle hidle,
      List.append_nil, Journal.deltas]
  · rw [hhalf, ← h.unfinished, hcalls, List.count_append, count_of_idle hidle rfl, Nat.add_zero]
  · rw [hhalf, Journal.sampleTimes, hcalls, List.filterMap_append, sampleTimes_of_idle hidle,
      List.append_nil]
    exact h.samples
  · exact hlate

/-- The time is the exact sum of what the design was told, and samples were taken at exact multiples
of the half period. -/
structure ExactTime (b : Bench σ τ) : Prop where
  time : b.time.toNat = 5 * b.journal.halfPeriods
  deltas : (b.journal.deltas.map UInt64.toNat).sum = b.time.toNat
  unfinished : b.journal.calls.count (.finished false) = b.journal.halfPeriods
  ordered : b.journal.sampleTimes.Pairwise (· < ·)
  multiples : ∀ time ∈ b.journal.sampleTimes, 5 ∣ time.toNat

theorem KeepsTime.exactTime {b : Bench σ τ} (h : b.KeepsTime)
    (hfits : 5 * b.journal.halfPeriods < 2 ^ 64) : b.ExactTime := by
  have htime : b.time.toNat = 5 * b.journal.halfPeriods := by rw [h.time, timeAfter_toNat hfits]
  obtain ⟨ks, hks, hsamples⟩ := h.samples
  have hexact : ∀ k ∈ ks, (timeAfter k).toNat = 5 * k := by
    intro k hk
    have hbelow := List.mem_range.mp (hks.subset hk)
    exact timeAfter_toNat (by omega)
  refine ⟨htime, ?_, h.unfinished, ?_, ?_⟩
  · rw [htime, h.deltas, List.map_replicate, List.sum_replicate_nat, Nat.mul_comm]
    rfl
  · rw [hsamples, List.pairwise_map]
    refine (List.pairwise_lt_range.sublist hks).imp_of_mem fun hj hk hlt => ?_
    rw [UInt64.lt_iff_toNat_lt, hexact _ hj, hexact _ hk]
    omega
  · intro time hmem
    rw [hsamples] at hmem
    obtain ⟨k, hk, rfl⟩ := List.mem_map.mp hmem
    exact ⟨k, hexact k hk⟩

end Bench

variable [Design σ]

namespace Design

theorem mem_edgesCalls {n : Nat} {s : σ} {c : Bench.Call} (h : c ∈ edgesCalls n s) :
    c = .evaluate ∨ c.setsClock = true := by
  obtain ⟨k, _, hc⟩ := List.mem_flatMap.mp h
  rcases List.mem_cons.mp hc with rfl | hc
  · exact .inr rfl
  · exact .inl (List.mem_singleton.mp hc)

theorem count_evaluate_edgesCalls (n : Nat) (s : σ) : (edgesCalls n s).count .evaluate = n := by
  have hedge (s : σ) : (edgeCalls s).count .evaluate = 1 := by simp [edgeCalls]
  simp [edgesCalls, List.count_flatMap, Function.comp_def, hedge, List.map_const']

theorem countP_setsClock_edgesCalls (n : Nat) (s : σ) :
    (edgesCalls n s).countP Bench.Call.setsClock = n := by
  have hedge (s : σ) : (edgeCalls s).countP Bench.Call.setsClock = 1 := rfl
  simp [edgesCalls, List.countP_flatMap, Function.comp_def, hedge, List.map_const']

def holdCalls (s : σ) : List Bench.Call := .evaluate :: edgesCalls 10 (held s)

theorem resetCalls_eq (s : σ) :
    resetCalls s = .setReset false :: holdCalls s ++ [.setReset true] := rfl

theorem mem_holdCalls {s : σ} {c : Bench.Call} (h : c ∈ holdCalls s) :
    c = .evaluate ∨ c.setsClock = true :=
  (List.mem_cons.mp h).elim .inl mem_edgesCalls

theorem isIdle_of_mem_resetCalls {s : σ} {c : Bench.Call} (h : c ∈ resetCalls s) :
    c.isIdle = true := by
  rw [resetCalls_eq, List.mem_append, List.mem_cons, List.mem_singleton] at h
  rcases h with (rfl | h) | rfl
  · rfl
  · rcases mem_holdCalls h with rfl | hc
    · rfl
    · cases c with
      | setClock level => rfl
      | _ => cases hc
  · rfl

end Design

namespace Bench

/-- Reset was held for eleven evaluations and an even number of clock edges. The time goes on from
where it was, with the same trace. -/
structure Released (b after : Bench σ τ) : Prop where
  phase : after.phase = .running
  time : after.time = b.time
  trace : after.trace = b.trace
  calls : after.journal.calls = b.journal.calls
    ++ .setReset false :: Design.holdCalls b.design ++ [.setReset true]
  evaluations : (Design.holdCalls b.design).count .evaluate = 11
  edges : Even ((Design.holdCalls b.design).countP Call.setsClock)
  others : ∀ c ∈ Design.holdCalls b.design, c = .evaluate ∨ c.setsClock = true

theorem reset_released (b : Bench σ τ) : b.Released b.reset where
  phase := by rw [reset_eq]; rfl
  time := by rw [reset_eq]; rfl
  trace := by rw [reset_eq]; rfl
  calls := by
    rw [reset_eq, calls_moved, Design.callsOf_resetActions, Design.resetCalls_eq, List.append_assoc]
  evaluations := by
    rw [Design.holdCalls, List.count_cons_self, Design.count_evaluate_edgesCalls]
  edges := by
    rw [Design.holdCalls, List.countP_cons_of_neg Bool.false_ne_true,
      Design.countP_setsClock_edgesCalls]
    exact ⟨5, rfl⟩
  others := fun _ => Design.mem_holdCalls

theorem KeepsTime.reset {b : Bench σ τ} (h : b.KeepsTime) : b.reset.KeepsTime := by
  have hreleased := b.reset_released
  have hcalls : b.reset.journal.calls = b.journal.calls ++ Design.resetCalls b.design := by
    rw [hreleased.calls, Design.resetCalls_eq, List.append_assoc]
  refine h.of_idle hcalls (fun _ => Design.isIdle_of_mem_resetCalls) hreleased.time ?_
  rw [hreleased.phase]
  nofun

theorem leads_reset_of {b : Bench σ τ} {design : σ}
    (h : Design.Leads design b.journal.calls b.design) :
    Design.Leads design b.reset.journal.calls b.reset.design := by
  rw [reset_eq, calls_moved, Design.callsOf_resetActions]
  exact h.trans (Design.leads_reset b.design)

theorem calls_finished (b : Bench σ τ) :
    ({ b with phase := .finished }.moved (Design.asked b.design) b.trace
      (callActions (.finished true) (Design.finished b.design).log)).journal.calls =
        b.journal.calls ++ [.finished true] := by
  rw [calls_moved, callsOf_callActions]

variable [Tracer τ]

theorem KeepsTime.afterPeriod {b : Bench σ τ} (h : b.KeepsTime) (hrunning : b.phase = .running) :
    b.afterPeriod.KeepsTime := by
  have hhalf := b.halfPeriods_afterPeriod
  have hcalls := b.calls_afterPeriod
  have hdeltas : (b.rig.periodCalls b.time).filterMap Call.delta? = [halfPeriod] := by
    rw [Rig.periodCalls, Rig.sampleCalls]
    split <;> rfl
  have hunfinished : (b.rig.periodCalls b.time).count (.finished false) = 1 := by
    rw [Rig.periodCalls, Rig.sampleCalls]
    split <;> simp [Design.edgeCalls]
  have hsamples : (b.rig.periodCalls b.time).filterMap Call.sampleTime? =
      if b.rig.clocked.trace.isSome then [b.time] else [] := by
    rw [Rig.periodCalls, Rig.sampleCalls]
    split <;> rfl
  constructor
  · rw [hhalf, ← timeAfter_succ, ← h.time]
    rfl
  · rw [hhalf, List.replicate_succ', ← h.deltas, Journal.deltas, hcalls, List.filterMap_append,
      hdeltas, Journal.deltas]
  · rw [hhalf, ← h.unfinished, hcalls, List.count_append, hunfinished]
  -- The sample of this half period comes behind all others, whose half periods are over.
  · obtain ⟨ks, hks, htimes⟩ := h.samples
    rw [Journal.sampleTimes] at htimes
    rw [hhalf, List.range_succ, Journal.sampleTimes, hcalls, List.filterMap_append, hsamples,
      htimes]
    split
    · exact ⟨ks ++ [b.journal.halfPeriods], hks.append (List.Sublist.refl _), by
        rw [List.map_append, List.map_singleton, ← h.time]⟩
    · exact ⟨ks, hks.trans (List.sublist_append_left _ _), List.append_nil _⟩
  · intro hlate
    cases hrunning.symm.trans hlate

theorem KeepsTime.step {b : Bench σ τ} (h : b.KeepsTime) : b.step.KeepsTime := by
  have hstepped := b.stepped
  generalize b.step = after at hstepped
  cases hstepped with
  | ended => exact h
  | finished =>
    have hidle : ∀ c ∈ [Call.finished true], c.isIdle = true := by decide
    exact h.of_idle (calls_finished b) hidle rfl nofun
  | period hrunning => exact h.afterPeriod hrunning
  | late hrunning _ hlimit hlate =>
    exact (h.afterPeriod hrunning).of_idle (calls_moved _ _ _ _) (List.forall_mem_nil _) rfl
      fun _ => ⟨_, hlimit, hlate⟩

def perform (b : Bench σ τ) : Operation → Bench σ τ
  | .reset => b.reset
  | .step => b.step
  | .run => b.run

def performAll (b : Bench σ τ) (ops : List Operation) : Bench σ τ := ops.foldl perform b

theorem performAll_cons (b : Bench σ τ) (op : Operation) (ops : List Operation) :
    b.performAll (op :: ops) = (b.perform op).performAll ops := rfl

theorem performAll_keeps {P : Bench σ τ → Prop} (hreset : ∀ b, P b → P b.reset)
    (hstep : ∀ b, P b → P b.step) {b : Bench σ τ} (h : P b) (ops : List Operation) :
    P (b.performAll ops) := by
  induction ops generalizing b with
  | nil => exact h
  | cons op ops ih =>
    rw [performAll_cons]
    apply ih
    cases op with
    | reset => exact hreset b h
    | step => exact hstep b h
    | run => exact runFor_keeps hstep h (stepsLeft b.time)

theorem performAll_limit (b : Bench σ τ) (ops : List Operation) :
    (b.performAll ops).limit = b.limit := by
  have hreset (b : Bench σ τ) : b.reset.limit = b.limit := by rw [reset_eq]; rfl
  exact performAll_keeps (P := fun after => after.limit = b.limit)
    (fun after h => (hreset after).trans h) (fun after h => after.step_limit.trans h) rfl ops

theorem performAll_phase_reset (b : Bench σ τ) (ops : List Operation) :
    (b.performAll ops).phase = .reset ↔ b.phase = .reset ∧ .reset ∉ ops := by
  induction ops generalizing b with
  | nil => simp [performAll]
  | cons op ops ih =>
    rw [performAll_cons, ih, List.mem_cons, not_or]
    cases op with
    | reset => simp [perform, b.reset_released.phase]
    | step => simp [perform, step_phase_reset]
    | run => simp [perform, run, runFor_phase_reset]

theorem KeepsTime.performAll {b : Bench σ τ} (h : b.KeepsTime) (ops : List Operation) :
    (b.performAll ops).KeepsTime :=
  performAll_keeps (fun _ h => h.reset) (fun _ h => h.step) h ops

/-- A run that does not come to its end lets the time overflow. -/
theorem KeepsTime.run_ended {b : Bench σ τ} (h : b.KeepsTime)
    (hfits : 5 * b.run.journal.halfPeriods < 2 ^ 64) : b.run.phase ≠ .running := by
  intro hrunning
  have hsteps : b.run.journal.halfPeriods = b.journal.halfPeriods + stepsLeft b.time :=
    halfPeriods_runFor_of_running hrunning
  have htime : b.time.toNat = 5 * b.journal.halfPeriods := by
    rw [h.time, timeAfter_toNat (by omega)]
  have hleft : stepsLeft b.time = (2 ^ 64 - 1 - b.time.toNat) / 5 + 1 := rfl
  omega

theorem asks_once {b : Bench σ τ} (h : b.phase = .running) :
    ∃ calls, b.step.journal.calls = b.journal.calls ++ calls ∧
      calls.countP Call.asksFinished = 1 := by
  have hperiod : (b.rig.periodCalls b.time).countP Call.asksFinished = 1 := by
    rw [Rig.periodCalls, Rig.sampleCalls]
    split <;> rfl
  have hstepped := b.stepped
  generalize b.step = after at hstepped
  cases hstepped with
  | ended hended => exact absurd h hended
  | finished => exact ⟨_, calls_finished b, rfl⟩
  | period => exact ⟨_, b.calls_afterPeriod, hperiod⟩
  | late =>
    refine ⟨_, ?_, hperiod⟩
    rw [calls_moved, callsOf_event, callsOf_nil, List.append_nil]
    exact b.calls_afterPeriod

theorem calls_prefix_performAll (b : Bench σ τ) (ops : List Operation) :
    b.journal.calls <+: (b.performAll ops).journal.calls := by
  have hreset (after : Bench σ τ) : after.journal.calls <+: after.reset.journal.calls := by
    rw [after.reset_released.calls, List.append_assoc]
    exact List.prefix_append _ _
  have hstep (after : Bench σ τ) : after.journal.calls <+: after.step.journal.calls := by
    by_cases h : after.phase = .running
    · obtain ⟨calls, hcalls, _⟩ := asks_once h
      exact ⟨calls, hcalls.symm⟩
    · exact ⟨[], by rw [List.append_nil, step_of_ended h]⟩
  exact performAll_keeps (P := fun after => b.journal.calls <+: after.journal.calls)
    (fun after h => h.trans (hreset after)) (fun after h => h.trans (hstep after))
    (List.prefix_refl _) ops

theorem leads_step_of {b : Bench σ τ} {design : σ}
    (h : Design.Leads design b.journal.calls b.design) :
    Design.Leads design b.step.journal.calls b.step.design := by
  have hperiod (hfinished : (Design.finished b.design).answer = false) :
      Design.Leads design b.afterPeriod.journal.calls b.afterPeriod.design := by
    rw [calls_afterPeriod]
    exact h.trans (Rig.leads_period (r := b.rig) hfinished b.time)
  have hstepped := b.stepped
  generalize b.step = after at hstepped
  cases hstepped with
  | ended => exact h
  | finished _ hfinished =>
    rw [calls_finished, ← hfinished]
    exact h.trans (.finished (.nil _))
  | period _ hfinished => exact hperiod hfinished
  | late _ hfinished =>
    rw [calls_moved, callsOf_event, callsOf_nil, List.append_nil]
    exact hperiod hfinished

/-- What holds of a new bench after any operations, as long as the time does not overflow. Each run
among the operations comes to its end then. -/
theorem performAll_exactTime (design : σ) (trace : Option τ) (limit : Option UInt64)
    (ops : List Operation)
    (hfits : 5 * (performAll { design, trace, limit } ops).journal.halfPeriods < 2 ^ 64) :
    let b : Bench σ τ := performAll { design, trace, limit } ops
    b.ExactTime ∧
    Design.Leads design b.journal.calls b.design ∧
    (b.phase = .reset ↔ .reset ∉ ops) ∧
    (b.phase = .timeout → ∃ m, limit = some m ∧ m < b.time) ∧
    (b.phase ≠ .running → b.step = b ∧ b.run = b) ∧
    b.Released b.reset ∧
    (b.phase = .running →
      (∃ calls, b.step.journal.calls = b.journal.calls ++ calls ∧
        calls.countP Call.asksFinished = 1) ∧
      ((Design.finished b.design).answer = true →
        b.step = { b with phase := .finished }.moved (Design.asked b.design) b.trace
          (callActions (.finished true) (Design.finished b.design).log))) ∧
    ∀ before after, ops = before ++ .run :: after →
      (performAll { design, trace, limit } before).run.phase ≠ .running := by
  intro b
  have hnew : ({ design, trace, limit } : Bench σ τ).KeepsTime :=
    ⟨rfl, rfl, rfl, ⟨[], List.Sublist.refl _, rfl⟩, nofun⟩
  have hstart : Design.Leads design ({ design, trace, limit } : Bench σ τ).journal.calls design :=
    .nil design
  have hkeeps : b.KeepsTime := hnew.performAll ops
  change 5 * b.journal.halfPeriods < 2 ^ 64 at hfits
  have hleads : Design.Leads design b.journal.calls b.design :=
    performAll_keeps (P := fun after => Design.Leads design after.journal.calls after.design)
      (fun _ => leads_reset_of) (fun _ => leads_step_of) hstart ops
  refine ⟨hkeeps.exactTime hfits, hleads, ?_, ?_, fun hended => ?_, b.reset_released,
    fun hrunning => ?_, fun before after hops => ?_⟩
  · exact (performAll_phase_reset _ ops).trans (and_iff_right rfl)
  · have hlimit : b.limit = limit := performAll_limit _ ops
    rw [← hlimit]
    exact hkeeps.late
  · exact ⟨step_of_ended hended, runFor_of_ended hended _⟩
  · exact ⟨asks_once hrunning, step_of_finished hrunning⟩
  · let ran := (performAll { design, trace, limit } before).run
    have hb : b = ran.performAll after := by
      change performAll _ ops = _
      rw [hops, performAll, List.foldl_append]
      rfl
    have hmore : ran.journal.halfPeriods ≤ b.journal.halfPeriods := by
      rw [hb]
      exact (calls_prefix_performAll ran after).sublist.count_le _
    have hran : 5 * ran.journal.halfPeriods < 2 ^ 64 := by omega
    exact (hnew.performAll before).run_ended hran

/-- Step and run wait for the reset. The limit is passed at time 25, and the second reset goes on
from there to one more half period. The recorder refuses its second sample. -/
theorem performAll_exactTime_past_limit :
    let design : PlainFetcher := ⟨{}⟩
    let recorder : Recorder := { refused := some 2 }
    let ops : List Operation := [.step, .run, .reset, .step, .run, .step, .reset, .run]
    let b := performAll { design, trace := some recorder, limit := some 20 } ops
    5 * b.journal.halfPeriods < 2 ^ 64 ∧ b.time.toNat = 5 * 6 ∧
      (b.journal.deltas.map UInt64.toNat).sum = 30 ∧ b.journal.sampleTimes = [0, 5] ∧
      Design.Leads design b.journal.calls b.design ∧
      b.phase = .timeout ∧ b.step = b ∧ b.Released b.reset := by
  intro design recorder ops b
  have hhalf : b.journal.halfPeriods = 6 := by decide +kernel
  have hfits : 5 * b.journal.halfPeriods < 2 ^ 64 := by
    rw [hhalf]
    decide
  have hphase : b.phase = .timeout := by decide +kernel
  obtain ⟨hexact, hleads, _, _, hended, hreleased, _⟩ :=
    performAll_exactTime design (some recorder) (some 20) ops hfits
  have htime : b.time.toNat = 5 * 6 := by rw [← hhalf]; exact hexact.time
  refine ⟨hfits, htime, hexact.deltas.trans htime, by decide +kernel, hleads, hphase, ?_,
    hreleased⟩
  exact (hended (by rw [hphase]; decide)).1

end Bench
end HexBench
