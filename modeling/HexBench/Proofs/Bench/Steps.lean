import HexBench.Proofs.Bench.Outcome

set_option autoImplicit false

namespace HexBench.Bench

open Wave (Tracer)

variable {σ τ : Type} [Design σ] [Tracer τ]

/-- The bench half a clock period later, before the limit is looked at. -/
def afterPeriod (b : Bench σ τ) : Bench σ τ :=
  { b with time := b.time + halfPeriod }.moved (b.rig.next b.time).design
    (b.rig.next b.time).trace (b.rig.periodActions b.time)

inductive Stepped (b : Bench σ τ) : Bench σ τ → Prop where
  | ended (h : b.phase ≠ .running) : Stepped b b
  | finished (h : b.phase = .running) (hfinished : (Design.finished b.design).answer = true) :
      Stepped b ({ b with phase := .finished }.moved (Design.asked b.design) b.trace
        (callActions (.finished true) (Design.finished b.design).log))
  | period (h : b.phase = .running) (hfinished : (Design.finished b.design).answer = false)
      (htime : b.afterPeriod.InTime) : Stepped b b.afterPeriod
  | late {limit : UInt64} (h : b.phase = .running)
      (hfinished : (Design.finished b.design).answer = false) (hlimit : b.limit = some limit)
      (hlate : limit < b.afterPeriod.time) :
      Stepped b ({ b.afterPeriod with phase := .timeout }.moved b.afterPeriod.design
        b.afterPeriod.trace [.event (.watchdog b.afterPeriod.time limit)])

theorem step_of_ended {b : Bench σ τ} (h : b.phase ≠ .running) : b.step = b := by
  rw [step, if_neg h]

theorem stepped (b : Bench σ τ) : b.Stepped b.step := by
  by_cases h : b.phase = .running
  · cases hfinished : (Design.finished b.design).answer with
    | true =>
      rw [step_of_finished h hfinished]
      exact .finished h hfinished
    | false =>
      rw [step_of_period h hfinished, ← afterPeriod]
      rcases b.afterPeriod.watch_cases with ⟨htime, hwatch⟩ | ⟨_, hlimit, hlate, hwatch⟩
      · rw [hwatch]
        exact .period h hfinished htime
      · rw [hwatch]
        exact .late h hfinished hlimit hlate
  · rw [step_of_ended h]
    exact .ended h

theorem runFor_of_ended {b : Bench σ τ} (h : b.phase ≠ .running) (fuel : Nat) :
    runFor fuel b = b := by
  cases fuel with
  | zero => rfl
  | succ fuel => rw [runFor, step_of_ended h, if_neg h]

theorem runFor_succ (fuel : Nat) (b : Bench σ τ) : runFor (fuel + 1) b = runFor fuel b.step := by
  rw [runFor]
  split
  · rfl
  · rename_i h
    exact (runFor_of_ended h fuel).symm

theorem runFor_keeps {P : Bench σ τ → Prop} (hstep : ∀ b, P b → P b.step) {b : Bench σ τ} (h : P b)
    (fuel : Nat) : P (runFor fuel b) := by
  induction fuel generalizing b with
  | zero => exact h
  | succ fuel ih =>
    rw [runFor_succ]
    exact ih (hstep b h)

theorem step_limit (b : Bench σ τ) : b.step.limit = b.limit := by
  have hstepped := b.stepped
  generalize b.step = after at hstepped
  cases hstepped <;> rfl

theorem step_phase_reset (b : Bench σ τ) : b.step.phase = .reset ↔ b.phase = .reset := by
  have hstepped := b.stepped
  generalize b.step = after at hstepped
  cases hstepped with
  | ended => exact Iff.rfl
  | finished h => rw [h]; exact ⟨nofun, nofun⟩
  | period h => exact Iff.rfl
  | late h => rw [h]; exact ⟨nofun, nofun⟩

theorem runFor_phase_reset (fuel : Nat) (b : Bench σ τ) :
    (runFor fuel b).phase = .reset ↔ b.phase = .reset :=
  runFor_keeps (P := fun after => after.phase = .reset ↔ b.phase = .reset)
    (fun after h => after.step_phase_reset.trans h) Iff.rfl fuel

theorem calls_afterPeriod (b : Bench σ τ) :
    b.afterPeriod.journal.calls = b.journal.calls ++ b.rig.periodCalls b.time := by
  rw [afterPeriod, calls_moved, Rig.callsOf_periodActions]

theorem halfPeriods_afterPeriod (b : Bench σ τ) :
    b.afterPeriod.journal.halfPeriods = b.journal.halfPeriods + 1 := by
  rw [Journal.halfPeriods, calls_afterPeriod, List.count_append, Rig.count_periodCalls,
    Journal.halfPeriods]

theorem halfPeriods_step_of_running {b : Bench σ τ} (h : b.step.phase = .running) :
    b.step.journal.halfPeriods = b.journal.halfPeriods + 1 := by
  have hstepped := b.stepped
  generalize b.step = after at h hstepped
  cases hstepped with
  | ended hended => exact absurd h hended
  | finished => cases h
  | period => exact b.halfPeriods_afterPeriod
  | late => cases h

theorem halfPeriods_runFor_of_running {fuel : Nat} {b : Bench σ τ}
    (h : (runFor fuel b).phase = .running) :
    (runFor fuel b).journal.halfPeriods = b.journal.halfPeriods + fuel := by
  induction fuel generalizing b with
  | zero => rfl
  | succ fuel ih =>
    rw [runFor_succ] at h ⊢
    have hstep : b.step.phase = .running := by
      by_contra hended
      rw [runFor_of_ended hended] at h
      exact hended h
    rw [ih h, halfPeriods_step_of_running hstep]
    omega

end HexBench.Bench
