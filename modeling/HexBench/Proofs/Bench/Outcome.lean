import HexBench.Proofs.Bench.Calls

set_option autoImplicit false

namespace HexBench

open Wave (Tracer Recorder)
open Bench (Action Call halfPeriod timeAfter stepsLeft)

variable {σ τ : Type} [Design σ]

namespace Bench

def Journal.halfPeriods (j : Journal) : Nat := j.calls.count (.advance halfPeriod)

end Bench

variable [Tracer τ]

namespace Rig

/-- The design says that it is finished after the given number of half periods, and not before. -/
def FinishesAfter (r : Rig σ τ) (n : Nat) : Prop :=
  (Design.finished (r.after n).design).answer = true ∧
    ∀ k < n, (Design.finished (r.after k).design).answer = false

theorem FinishesAfter.unique {r : Rig σ τ} {n k : Nat} (hn : r.FinishesAfter n)
    (hk : r.FinishesAfter k) : n = k := by
  rcases Nat.lt_trichotomy n k with hlt | heq | hgt
  · have hearly := hk.2 n hlt
    rw [hn.1] at hearly
    cases hearly
  · exact heq
  · have hearly := hn.2 k hgt
    rw [hk.1] at hearly
    cases hearly

omit [Tracer τ] in
theorem count_periodCalls (time : UInt64) (r : Rig σ τ) :
    (r.periodCalls time).count (.advance halfPeriod) = 1 := by
  have hsample : (r.clocked.sampleCalls time).count (.advance 5) = 0 := by
    rw [sampleCalls]
    split <;> simp
  simp [periodCalls, Design.edgeCalls, hsample, halfPeriod]

end Rig

namespace Bench

/-- The run leaves its loop in a phase, after the given number of half periods. At each step until
then the bench is running, and its time is the exact sum: no addition overflows. -/
structure Ends (b : Bench σ τ) (last : Phase) (n : Nat) : Prop where
  phase : b.run.phase = last
  ended : last ≠ .running
  time : b.run.time.toNat = 5 * n
  halfPeriods : b.run.journal.halfPeriods = b.journal.halfPeriods + n
  steps : ∃ steps, b.run = step^[steps] b ∧
    ∀ k < steps, (step^[k] b).phase = .running ∧ (step^[k] b).time.toNat = 5 * k

theorem Lasts.mono {b : Bench σ τ} {n k : Nat} (h : b.Lasts n) (hk : k ≤ n) : b.Lasts k :=
  fun j hj => h j (Nat.lt_of_lt_of_le hj hk)

theorem Lasts.time_le {b : Bench σ τ} {n : Nat} {limit : UInt64} (h : b.Lasts n)
    (hfits : 5 * n < 2 ^ 64) (hlimit : b.limit = some limit) : 5 * n ≤ limit.toNat := by
  cases n with
  | zero => exact Nat.zero_le _
  | succ n =>
    have hle : timeAfter (n + 1) ≤ limit := (h n (Nat.lt_succ_self n)).2 limit hlimit
    rwa [UInt64.le_iff_toNat_le, timeAfter_toNat hfits] at hle

theorem Lasts.iterate_step {b : Bench σ τ} {n : Nat} (h : b.Lasts n) (hrunning : b.phase = .running)
    (htime : b.time = 0) : step^[n] b = b.afterPeriods n := by
  induction n with
  | zero => exact (afterPeriods_zero htime).symm
  | succ n ih =>
    obtain ⟨hfinished, hintime⟩ := h n (Nat.lt_succ_self n)
    rw [Function.iterate_succ_apply', ih (h.mono (Nat.le_succ n)),
      step_afterPeriods hrunning hfinished, watch_of_inTime hintime]

theorem Lasts.running {b : Bench σ τ} {n : Nat} (h : b.Lasts n) (hrunning : b.phase = .running)
    (htime : b.time = 0) (hfits : 5 * n < 2 ^ 64) :
    (step^[n] b).phase = .running ∧ (step^[n] b).time.toNat = 5 * n := by
  rw [h.iterate_step hrunning htime]
  exact ⟨hrunning, timeAfter_toNat hfits⟩

omit [Design σ] [Tracer τ] in
theorem halfPeriods_moved (b : Bench σ τ) (design : σ) (trace : Option τ) (actions : List Action) :
    (b.moved design trace actions).journal.halfPeriods =
      b.journal.halfPeriods + (callsOf actions).count (.advance halfPeriod) := by
  rw [Journal.halfPeriods, calls_moved, List.count_append, Journal.halfPeriods]

theorem halfPeriods_afterPeriods (b : Bench σ τ) (n : Nat) :
    (b.afterPeriods n).journal.halfPeriods = b.journal.halfPeriods + n := by
  have hcount : (callsOf (b.rig.periodsActions n)).count (.advance halfPeriod) = n := by
    simp [Rig.callsOf_periodsActions, List.count_flatMap, Function.comp_def, Rig.count_periodCalls,
      List.map_const']
  exact (halfPeriods_moved { b with time := timeAfter n } _ _ _).trans (by rw [hcount])

theorem Lasts.ends_finished {b : Bench σ τ} {n : Nat} (h : b.Lasts n)
    (hrunning : b.phase = .running) (htime : b.time = 0) (hfits : 5 * n < 2 ^ 64)
    (hfinished : (Design.finished (b.rig.after n).design).answer = true)
    (hrun : b.run = { b.afterPeriods n with phase := .finished }.moved
      (Design.asked (b.rig.after n).design) (b.rig.after n).trace
      (callActions (.finished true) (Design.finished (b.rig.after n).design).log)) :
    b.Ends .finished n where
  phase := by rw [hrun]; rfl
  ended := by decide
  time := by rw [hrun]; exact timeAfter_toNat hfits
  halfPeriods := by
    rw [hrun, halfPeriods_moved, callsOf_callActions]
    exact halfPeriods_afterPeriods b n
  steps := by
    refine ⟨n + 1, ?_, fun k hk => ?_⟩
    · rw [hrun, Function.iterate_succ_apply', h.iterate_step hrunning htime]
      exact (step_of_finished (b := b.afterPeriods n) hrunning hfinished).symm
    · exact (h.mono (Nat.le_of_lt_succ hk)).running hrunning htime (by omega)

theorem Lasts.ends_timeout {b : Bench σ τ} {n : Nat} {limit : UInt64} (h : b.Lasts n)
    (hrunning : b.phase = .running) (htime : b.time = 0) (hfits : 5 * (n + 1) < 2 ^ 64)
    (hfinished : (Design.finished (b.rig.after n).design).answer = false)
    (hlimit : b.limit = some limit) (hlate : limit < timeAfter (n + 1))
    (hrun : b.run = { b.afterPeriods (n + 1) with phase := .timeout }.moved
      (b.rig.after (n + 1)).design (b.rig.after (n + 1)).trace
      [.event (.watchdog (timeAfter (n + 1)) limit)]) :
    b.Ends .timeout (n + 1) where
  phase := by rw [hrun]; rfl
  ended := by decide
  time := by rw [hrun]; exact timeAfter_toNat hfits
  halfPeriods := by
    rw [hrun, halfPeriods_moved]
    exact halfPeriods_afterPeriods b (n + 1)
  steps := by
    refine ⟨n + 1, ?_, fun k hk => ?_⟩
    · rw [hrun, Function.iterate_succ_apply', h.iterate_step hrunning htime,
        step_afterPeriods hrunning hfinished]
      exact (watch_of_late (b := b.afterPeriods (n + 1)) hlimit hlate).symm
    · exact (h.mono (Nat.le_of_lt_succ hk)).running hrunning htime (by omega)

theorem run_of_limit {b : Bench σ τ} {limit : UInt64} (hrunning : b.phase = .running)
    (htime : b.time = 0) (hlimit : b.limit = some limit) (hbelow : limit.toNat < 2 ^ 64 - 1) :
    (∃ n, b.rig.FinishesAfter n ∧ 5 * n ≤ limit.toNat ∧ b.Ends .finished n) ∨
      (∀ n, b.rig.FinishesAfter n → limit.toNat < 5 * n) ∧
        b.Ends .timeout (limit.toNat / 5 + 1) := by
  have hending := run_ending hrunning htime
  generalize hrun : b.run = ended at hending
  cases hending with
  | @finished n hbound hlasts hfinished =>
    have hfits := lt_of_lt_stepsLeft hbound
    refine .inl ⟨n, ⟨hfinished, fun k hk => (hlasts k hk).1⟩, hlasts.time_le hfits hlimit, ?_⟩
    exact hlasts.ends_finished hrunning htime hfits hfinished hrun
  | @timeout n m hbound hlasts hfinished hm hlate =>
    obtain rfl : m = limit := Option.some.inj (hm.symm.trans hlimit)
    have hfits := timeout_fits hbound hlasts hlimit hlate
    have hreached := hlasts.time_le (lt_of_lt_stepsLeft hbound) hlimit
    have hpassed : m.toNat < 5 * (n + 1) := by
      rw [← timeAfter_toNat hfits]
      exact UInt64.lt_iff_toNat_lt.mp hlate
    have hn : m.toNat / 5 = n := by omega
    refine .inr ⟨fun k hk => ?_, ?_⟩
    · by_contra hearly
      have hunfinished : (Design.finished (b.rig.after k).design).answer = false := by
        rcases Nat.lt_or_eq_of_le (show k ≤ n by omega) with hlt | rfl
        · exact (hlasts k hlt).1
        · exact hfinished
      rw [hk.1] at hunfinished
      cases hunfinished
    · rw [hn]
      exact hlasts.ends_timeout hrunning htime hfits hfinished hlimit hlate hrun
  -- A run that outlasts all steps has reached the last 64-bit number without passing its limit.
  | running hlasts =>
    have hsteps : 5 * (stepsLeft 0 - 1) = 2 ^ 64 - 1 := by decide
    have hreached := (hlasts.mono (Nat.sub_le _ 1)).time_le (by omega) hlimit
    omega

theorem run_without_limit {b : Bench σ τ} {n : Nat} (hrunning : b.phase = .running)
    (htime : b.time = 0) (hlimit : b.limit = none) (hn : b.rig.FinishesAfter n)
    (hfits : 5 * n < 2 ^ 64) : b.Ends .finished n := by
  have hending := run_ending hrunning htime
  generalize hrun : b.run = ended at hending
  cases hending with
  | @finished k hbound hlasts hfinished =>
    obtain rfl : n = k := hn.unique ⟨hfinished, fun j hj => (hlasts j hj).1⟩
    exact hlasts.ends_finished hrunning htime hfits hfinished hrun
  | timeout _ _ _ hlimited => cases hlimit.symm.trans hlimited
  | running hlasts =>
    have hsteps : stepsLeft 0 = (2 ^ 64 - 1) / 5 + 1 := by decide
    have hunfinished := (hlasts n (by omega)).1
    rw [hn.1] at hunfinished
    cases hunfinished

/-- A run after reset ends exactly when the design first says that it is finished, unless a limit is
passed before. A design that finishes with the half period that passes the limit is timed out. -/
theorem run_outcome (design : σ) (trace : Option τ) :
    let rig : Rig σ τ := ⟨Design.released design, trace⟩
    let start (limit : Option UInt64) : Bench σ τ := ({ design, trace, limit } : Bench σ τ).reset
    (∀ limit : UInt64, limit.toNat < 2 ^ 64 - 1 →
      (∀ n, rig.FinishesAfter n → 5 * n ≤ limit.toNat → (start limit).Ends .finished n) ∧
      ((∀ n, rig.FinishesAfter n → limit.toNat < 5 * n) →
        (start limit).Ends .timeout (limit.toNat / 5 + 1))) ∧
    ∀ n, rig.FinishesAfter n → 5 * n < 2 ^ 64 → (start none).Ends .finished n := by
  intro rig start
  have hrunning (limit : Option UInt64) : (start limit).phase = .running := by
    rw [show start limit = _ from reset_eq _]; rfl
  have htime (limit : Option UInt64) : (start limit).time = 0 := by
    rw [show start limit = _ from reset_eq _]; rfl
  have hlimit (limit : Option UInt64) : (start limit).limit = limit := by
    rw [show start limit = _ from reset_eq _]; rfl
  have hrig (limit : Option UInt64) : (start limit).rig = rig := by
    rw [show start limit = _ from reset_eq _]; rfl
  refine ⟨fun limit hbelow => ?_, fun n hn hfits => ?_⟩
  · have hrun := run_of_limit (hrunning limit) (htime limit) (hlimit limit) hbelow
    rw [hrig] at hrun
    refine ⟨fun n hn hintime => ?_, fun hlate => ?_⟩
    · rcases hrun with ⟨k, hk, _, hends⟩ | ⟨hlate, _⟩
      · rwa [hn.unique hk]
      · exact absurd (hlate n hn) (Nat.not_lt.mpr hintime)
    · rcases hrun with ⟨k, hk, hintime, _⟩ | ⟨_, hends⟩
      · exact absurd (hlate k hk) (Nat.not_lt.mpr hintime)
      · exact hends
  · exact run_without_limit (hrunning none) (htime none) (hlimit none) (by rwa [hrig]) hfits

/-- The third rising edge comes with the fifth half period, at time 25. -/
theorem run_outcome_third_edge :
    let design : PlainFetcher := ⟨{ rule := { edges := some 3 } }⟩
    let rig : Rig PlainFetcher Recorder := ⟨Design.released design, none⟩
    let start (limit : Option UInt64) : Bench PlainFetcher Recorder :=
      ({ design, trace := none, limit } : Bench PlainFetcher Recorder).reset
    rig.FinishesAfter 5 ∧ (start (some 25)).Ends .finished 5 ∧ (start (some 24)).Ends .timeout 5 ∧
      (start none).Ends .finished 5 := by
  intro design rig start
  have hfive : rig.FinishesAfter 5 := ⟨by decide +kernel, by decide +kernel⟩
  obtain ⟨hlimited, hunlimited⟩ := run_outcome (τ := Recorder) design none
  refine ⟨hfive, (hlimited 25 (by decide)).1 5 hfive (by decide), ?_,
    hunlimited 5 hfive (by decide)⟩
  refine (hlimited 24 (by decide)).2 fun n hn => ?_
  rw [hn.unique hfive]
  decide

end Bench
end HexBench
