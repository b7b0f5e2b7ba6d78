import HexBench.Proofs.Bench.Course

set_option autoImplicit false

namespace HexBench.Bench

open Wave (Tracer)

section Time

theorem timeAfter_succ (n : Nat) : timeAfter n + halfPeriod = timeAfter (n + 1) := by
  rw [timeAfter, timeAfter, Nat.mul_succ, UInt64.ofNat_add]
  rfl

theorem timeAfter_toNat {n : Nat} (h : 5 * n < 2 ^ 64) : (timeAfter n).toNat = 5 * n :=
  UInt64.toNat_ofNat_of_lt' h

theorem timeAfter_stepsLeft : timeAfter (stepsLeft 0) = 4 := by decide

theorem lt_of_lt_stepsLeft {n : Nat} (h : n < stepsLeft 0) : 5 * n < 2 ^ 64 := by
  have hsteps : stepsLeft 0 = 3689348814741910324 := by decide
  omega

end Time

variable {σ τ : Type} [Design σ]

theorem advance_eq (b : Bench σ τ) :
    b.advance = { b with time := b.time + halfPeriod }.moved (Design.advance 5 b.design).1 b.trace
      (callActions (.advance halfPeriod) (Design.advance 5 b.design).2) := rfl

variable [Tracer τ]

theorem step_of_finished {b : Bench σ τ} (h : b.phase = .running)
    (hfinished : (Design.finished b.design).answer = true) :
    b.step = { b with phase := .finished }.moved (Design.asked b.design) b.trace
      (callActions (.finished true) (Design.finished b.design).log) := by
  rw [step, if_pos h, askFinished, hfinished]
  rfl

theorem step_of_period {b : Bench σ τ} (h : b.phase = .running)
    (hfinished : (Design.finished b.design).answer = false) :
    b.step = ({ b with time := b.time + halfPeriod }.moved (b.rig.next b.time).design
      (b.rig.next b.time).trace (b.rig.periodActions b.time)).watch := by
  let asked := b.moved (Design.asked b.design) b.trace
    (callActions (.finished false) (Design.finished b.design).log)
  have hasked : b.askFinished = (false, asked) := by
    rw [askFinished, hfinished]
    rfl
  have hsampled : asked.toggleClock.sampleWaves = b.moved (b.rig.clocked.sampled b.time).design
      (b.rig.clocked.sampled b.time).trace
      (callActions (.finished false) (Design.finished b.design).log
        ++ Design.edgeActions (Design.asked b.design) ++ b.rig.clocked.sampleActions b.time) := by
    rw [toggleClock_eq, moved_moved, sampleWaves_eq, moved_moved]
    rfl
  have hstep : b.step = (asked.toggleClock.sampleWaves.advance).watch := by
    rw [step, if_pos h, hasked]
    rfl
  rw [hstep, hsampled, advance_eq]
  exact congrArg watch (moved_moved { b with time := b.time + halfPeriod } _ _ _ _ _ _)

def InTime (b : Bench σ τ) : Prop := ∀ limit, b.limit = some limit → b.time ≤ limit

omit [Design σ] [Tracer τ] in
theorem InTime.of_eq {b c : Bench σ τ} (h : b.InTime) (hlimit : b.limit = c.limit)
    (htime : b.time = c.time) : c.InTime := by
  intro limit hc
  rw [← htime]
  exact h limit (hlimit.trans hc)

omit [Design σ] [Tracer τ] in
theorem watch_of_inTime {b : Bench σ τ} (h : b.InTime) : b.watch = b := by
  cases hlimit : b.limit with
  | none => simp only [watch, hlimit]
  | some limit =>
    have hle : ¬ limit < b.time := UInt64.not_lt.mpr (h limit hlimit)
    simp only [watch, hlimit, if_neg hle]

omit [Design σ] [Tracer τ] in
theorem watch_of_late {b : Bench σ τ} {limit : UInt64} (hlimit : b.limit = some limit)
    (hlate : limit < b.time) :
    b.watch = { b with phase := .timeout }.moved b.design b.trace
      [.event (.watchdog b.time limit)] := by
  simp only [watch, hlimit, if_pos hlate, note_eq]

omit [Design σ] [Tracer τ] in
theorem watch_cases (b : Bench σ τ) : b.InTime ∧ b.watch = b ∨
    ∃ limit, b.limit = some limit ∧ limit < b.time ∧
      b.watch = { b with phase := .timeout }.moved b.design b.trace
        [.event (.watchdog b.time limit)] := by
  by_cases hintime : b.InTime
  · exact .inl ⟨hintime, watch_of_inTime hintime⟩
  · simp only [InTime, not_forall, UInt64.not_le] at hintime
    obtain ⟨limit, hlimit, hlate⟩ := hintime
    exact .inr ⟨limit, hlimit, hlate, watch_of_late hlimit hlate⟩

def afterPeriods (b : Bench σ τ) (n : Nat) : Bench σ τ :=
  { b with time := timeAfter n }.moved (b.rig.after n).design (b.rig.after n).trace
    (b.rig.periodsActions n)

theorem afterPeriods_zero {b : Bench σ τ} (h : b.time = 0) : b.afterPeriods 0 = b := by
  have htime : { b with time := timeAfter 0 } = b := by rw [show timeAfter 0 = b.time from h.symm]
  rw [afterPeriods, htime]
  exact moved_nil b

theorem afterPeriods_succ (b : Bench σ τ) (n : Nat) :
    b.afterPeriods (n + 1) =
      { b.afterPeriods n with time := (b.afterPeriods n).time + halfPeriod }.moved
        ((b.rig.after n).next (timeAfter n)).design ((b.rig.after n).next (timeAfter n)).trace
        ((b.rig.after n).periodActions (timeAfter n)) := by
  have htime : (b.afterPeriods n).time + halfPeriod = timeAfter (n + 1) := timeAfter_succ n
  rw [htime, afterPeriods, Rig.periodsActions_succ]
  exact (moved_moved { b with time := timeAfter (n + 1) } _ _ _ _ _ _).symm

theorem step_afterPeriods {b : Bench σ τ} {n : Nat} (h : b.phase = .running)
    (hfinished : (Design.finished (b.rig.after n).design).answer = false) :
    (b.afterPeriods n).step = (b.afterPeriods (n + 1)).watch := by
  rw [b.afterPeriods_succ n]
  exact step_of_period (b := b.afterPeriods n) h hfinished

/-- Neither the design nor the limit ends the run before the given number of half periods. -/
def Lasts (b : Bench σ τ) (n : Nat) : Prop :=
  ∀ k < n, (Design.finished (b.rig.after k).design).answer = false ∧ (b.afterPeriods (k + 1)).InTime

theorem Lasts.succ {b : Bench σ τ} {n : Nat} (h : b.Lasts n)
    (hfinished : (Design.finished (b.rig.after n).design).answer = false)
    (htime : (b.afterPeriods (n + 1)).InTime) : b.Lasts (n + 1) := by
  intro k hk
  rcases Nat.lt_succ_iff_lt_or_eq.mp hk with hlt | rfl
  · exact h k hlt
  · exact ⟨hfinished, htime⟩

/-- Where a run that takes at most the given number of half periods can end. -/
inductive Ending (b : Bench σ τ) (bound : Nat) : Bench σ τ → Prop where
  | finished {n : Nat} (hbound : n < bound) (hlasts : b.Lasts n)
      (hfinished : (Design.finished (b.rig.after n).design).answer = true) :
      Ending b bound ({ b.afterPeriods n with phase := .finished }.moved
        (Design.asked (b.rig.after n).design) (b.rig.after n).trace
        (callActions (.finished true) (Design.finished (b.rig.after n).design).log))
  | timeout {n : Nat} {limit : UInt64} (hbound : n < bound) (hlasts : b.Lasts n)
      (hfinished : (Design.finished (b.rig.after n).design).answer = false)
      (hlimit : b.limit = some limit) (hlate : limit < timeAfter (n + 1)) :
      Ending b bound ({ b.afterPeriods (n + 1) with phase := .timeout }.moved
        (b.rig.after (n + 1)).design (b.rig.after (n + 1)).trace
        [.event (.watchdog (timeAfter (n + 1)) limit)])
  | running (hlasts : b.Lasts bound) : Ending b bound (b.afterPeriods bound)

theorem runFor_ending {b : Bench σ τ} (h : b.phase = .running) (fuel k : Nat) (hlasts : b.Lasts k) :
    b.Ending (k + fuel) (runFor fuel (b.afterPeriods k)) := by
  induction fuel generalizing k with
  | zero => exact .running hlasts
  | succ fuel ih =>
    have hbound : k < k + (fuel + 1) := by omega
    rw [runFor]
    cases hfinished : (Design.finished (b.rig.after k).design).answer with
    | true =>
      rw [step_of_finished (b := b.afterPeriods k) h hfinished]
      exact .finished hbound hlasts hfinished
    | false =>
      rw [step_afterPeriods h hfinished]
      rcases (b.afterPeriods (k + 1)).watch_cases with ⟨htime, hwatch⟩ | ⟨_, hlimit, hlate, hwatch⟩
      · have hrunning : (b.afterPeriods (k + 1)).phase = .running := h
        rw [hwatch, if_pos hrunning, Nat.add_comm fuel 1, ← Nat.add_assoc]
        exact ih (k + 1) (hlasts.succ hfinished htime)
      · rw [hwatch]
        exact .timeout hbound hlasts hfinished hlimit hlate

theorem run_ending {b : Bench σ τ} (h : b.phase = .running) (htime : b.time = 0) :
    b.Ending (stepsLeft 0) b.run := by
  have hrun := runFor_ending h (stepsLeft 0) 0 (fun k hk => absurd hk (Nat.not_lt_zero k))
  rw [afterPeriods_zero htime, Nat.zero_add] at hrun
  rw [run, htime]
  exact hrun

theorem timeout_fits {b : Bench σ τ} {n : Nat} {limit : UInt64} (hbound : n < stepsLeft 0)
    (hlasts : b.Lasts n) (hlimit : b.limit = some limit) (hlate : limit < timeAfter (n + 1)) :
    5 * (n + 1) < 2 ^ 64 := by
  rcases Nat.lt_or_ge (n + 1) (stepsLeft 0) with hlt | hge
  · exact lt_of_lt_stepsLeft hlt
  -- The time overflows in the last half period that can be begun, to a time below any limit that
  -- did not end the run before.
  · have hlast : n + 1 = stepsLeft 0 := by omega
    have hsteps : 1 < stepsLeft 0 := by decide
    obtain ⟨m, rfl⟩ : ∃ m, n = m + 1 := ⟨n - 1, by omega⟩
    have hbefore : timeAfter (m + 1) ≤ limit := (hlasts m (Nat.lt_succ_self m)).2 limit hlimit
    have hm := timeAfter_toNat (lt_of_lt_stepsLeft hbound)
    rw [hlast, timeAfter_stepsLeft] at hlate
    rw [UInt64.le_iff_toNat_le] at hbefore
    have hfour : limit.toNat < 4 := UInt64.lt_iff_toNat_lt.mp hlate
    omega

def closeActions : Option τ → List Action
  | none => []
  | some trace => replyActions .close (Tracer.close trace)
      ++ ((Tracer.close trace).failure.map fun cause => .event (.closeFailed cause)).toList

omit [Design σ] in
theorem finish_eq (b : Bench σ τ) :
    b.finish = b.moved b.design none
      (closeActions b.trace ++ [.event (.ended b.phase b.time)]) := by
  cases htrace : b.trace with
  | none =>
    have hnone : { b with trace := none } = b := by rw [← htrace]
    rw [finish, htrace]
    exact (note_eq b _).trans (by rw [closeActions, htrace]; rfl)
  | some trace =>
    let closing := b.moved b.design none (replyActions .close (Tracer.close trace))
    cases hfailure : (Tracer.close trace).failure with
    | none =>
      have hclosed : b.finish = closing.note (.event (.ended b.phase b.time)) := by
        simp only [finish, htrace, hfailure]
        rfl
      rw [hclosed, note_eq, moved_moved, closeActions, hfailure, Option.map_none,
        Option.toList_none, List.append_nil]
      rfl
    | some cause =>
      have hclosed : b.finish = (closing.note (.event (.closeFailed cause))).note
          (.event (.ended b.phase b.time)) := by
        simp only [finish, htrace, hfailure]
        rfl
      rw [hclosed, note_eq, note_eq, moved_moved, moved_moved, closeActions, hfailure,
        Option.map_some, Option.toList_some, List.append_assoc]
      rfl

end HexBench.Bench
