import HexBench.Proofs.Bench.Steps

set_option autoImplicit false

namespace HexBench

open Wave (Tracer TraceReply)

namespace Bench

namespace Action

def text : Action → Bytes
  | traceText pieces => pieces.flatten
  | _ => []

def isSampleFailure : Action → Bool
  | event (.sampleFailed ..) => true
  | _ => false

def isOutput : Action → Bool
  | traceText _ | event (.sampleFailed ..) => true
  | _ => false

end Action

def textOf (actions : List Action) : Bytes := actions.flatMap Action.text

theorem textOf_append (xs ys : List Action) : textOf (xs ++ ys) = textOf xs ++ textOf ys :=
  List.flatMap_append

theorem Journal.text_eq (j : Journal) : j.text = textOf j.toList := by
  have htext : (fun | .traceText pieces => pieces.flatten | _ => []) = Action.text := by
    funext action
    cases action <;> rfl
  exact congrArg (fun f => j.toList.flatMap f) htext

def Journal.sampleFailures (j : Journal) : Nat := j.toList.countP Action.isSampleFailure

def Quiet (actions : List Action) : Prop := ∀ a ∈ actions, a.isOutput = false

theorem Quiet.append {xs ys : List Action} (h : Quiet xs) (h' : Quiet ys) : Quiet (xs ++ ys) :=
  fun a ha => (List.mem_append.mp ha).elim (h a) (h' a)

theorem Quiet.textOf {actions : List Action} (h : Quiet actions) : textOf actions = [] := by
  refine List.flatMap_eq_nil_iff.mpr fun a ha => ?_
  cases a with
  | traceText pieces => cases h _ ha
  | _ => rfl

theorem Quiet.countP {actions : List Action} (h : Quiet actions) :
    actions.countP Action.isSampleFailure = 0 := by
  refine List.countP_eq_zero.mpr fun a ha hfailure => ?_
  cases a with
  | event e =>
    cases e with
    | sampleFailed time cause => cases h _ ha
    | _ => cases hfailure
  | _ => cases hfailure

theorem quiet_designLog (log : List LogEntry) : Quiet (log.map .designLog) := by
  simp [Quiet, Action.isOutput]

theorem quiet_callActions (c : Call) (log : List LogEntry) : Quiet (callActions c log) := by
  simp [Quiet, callActions, Action.isOutput]

theorem quiet_signalsActions (log : List LogEntry) : Quiet (signalsActions log) := by
  simp [Quiet, signalsActions, Action.isOutput]

theorem quiet_watchdog (time limit : UInt64) : Quiet [.event (.watchdog time limit)] := by
  simp [Quiet, Action.isOutput]

theorem quiet_replyLog {τ : Type} (r : TraceReply τ) : Quiet (r.log.map .traceLog) := by
  simp [Quiet, Action.isOutput]

theorem textOf_replyActions {τ : Type} (c : Call) (r : TraceReply τ) :
    textOf (replyActions c r) = r.pieces.flatten := by
  have hlog := (quiet_replyLog r).textOf
  simp only [textOf] at hlog
  simp only [textOf, replyActions, List.flatMap_cons, hlog, Action.text, List.nil_append,
    List.append_nil]

theorem countP_replyActions {τ : Type} (c : Call) (r : TraceReply τ) :
    (replyActions c r).countP Action.isSampleFailure = 0 := by
  have hlog := (quiet_replyLog r).countP
  simp only [replyActions, List.countP_cons, hlog]
  rfl

/-- Two replies that the bench cannot tell apart, whatever the traces behind them. -/
structure Alike {τ : Type} (r q : TraceReply τ) : Prop where
  failure : r.failure = q.failure
  log : r.log = q.log
  pieces : r.pieces = q.pieces

section Moved

variable {σ τ : Type}

theorem text_moved (b : Bench σ τ) (design : σ) (trace : Option τ) (actions : List Action) :
    (b.moved design trace actions).journal.text = b.journal.text ++ textOf actions := by
  rw [Journal.text_eq, Journal.text_eq, ← textOf_append]
  simp only [moved, Array.toList_appendList]

theorem sampleFailures_moved (b : Bench σ τ) (design : σ) (trace : Option τ)
    (actions : List Action) : (b.moved design trace actions).journal.sampleFailures =
      b.journal.sampleFailures + actions.countP Action.isSampleFailure := by
  rw [Journal.sampleFailures, Journal.sampleFailures, ← List.countP_append]
  simp only [moved, Array.toList_appendList]

/-- Nothing came from the trace between one state of a bench and another. -/
structure Silent (b after : Bench σ τ) : Prop where
  trace : after.trace = b.trace
  text : after.journal.text = b.journal.text
  failures : after.journal.sampleFailures = b.journal.sampleFailures

theorem Silent.refl (b : Bench σ τ) : b.Silent b := ⟨rfl, rfl, rfl⟩

theorem Silent.trans {a b c : Bench σ τ} (h : a.Silent b) (h' : b.Silent c) : a.Silent c :=
  ⟨h'.trace.trans h.trace, h'.text.trans h.text, h'.failures.trans h.failures⟩

theorem Quiet.silent {actions : List Action} (h : Quiet actions) (b : Bench σ τ) (design : σ)
    (phase : Phase) : b.Silent ({ b with phase }.moved design b.trace actions) where
  trace := rfl
  text := by rw [text_moved, h.textOf, List.append_nil]
  failures := by rw [sampleFailures_moved, h.countP, Nat.add_zero]

theorem watch_silent (b : Bench σ τ) : b.Silent b.watch := by
  rcases b.watch_cases with ⟨_, hwatch⟩ | ⟨limit, _, _, hwatch⟩
  · rw [hwatch]
    exact Silent.refl b
  · rw [hwatch]
    exact (quiet_watchdog b.time limit).silent b b.design .timeout

end Moved

end Bench

open Bench (Action Quiet textOf halfPeriod callActions replyActions signalsActions
  quiet_callActions quiet_signalsActions)

variable {σ τ : Type} [Design σ]

namespace Design

theorem quiet_edgeActions (s : σ) : Quiet (edgeActions s) :=
  (Bench.quiet_designLog _).append ((quiet_callActions _ _).append (quiet_callActions _ _))

theorem quiet_resetActions (s : σ) : Quiet (resetActions s) := by
  have hheld : Quiet (heldActions s) := (quiet_callActions _ _).append (quiet_callActions _ _)
  have hedges : Quiet (edgesActions Bench.resetEdges (held s)) := by
    intro a ha
    obtain ⟨_, _, hedge⟩ := List.mem_flatMap.mp ha
    exact quiet_edgeActions _ a hedge
  have hevent : Quiet [.event .resetReleased] := by simp [Quiet, Action.isOutput]
  exact hheld.append (hedges.append ((quiet_callActions _ _).append hevent))

end Design

namespace Rig

theorem quiet_beforeSample (s : σ) :
    Quiet (callActions (.finished false) (Design.finished s).log
      ++ Design.edgeActions (Design.asked s)) :=
  (quiet_callActions _ _).append (Design.quiet_edgeActions _)

variable [Tracer τ]

theorem textOf_periodActions (time : UInt64) (r : Rig σ τ) :
    textOf (r.periodActions time) = textOf (r.clocked.sampleActions time) := by
  rw [periodActions, Bench.textOf_append, Bench.textOf_append, (quiet_callActions _ _).textOf,
    (quiet_beforeSample _).textOf, List.append_nil, List.nil_append]

theorem countP_periodActions (time : UInt64) (r : Rig σ τ) :
    (r.periodActions time).countP Action.isSampleFailure =
      (r.clocked.sampleActions time).countP Action.isSampleFailure := by
  rw [periodActions, List.countP_append, List.countP_append, (quiet_callActions _ _).countP,
    (quiet_beforeSample _).countP, Nat.add_zero, Nat.zero_add]

section Reply

variable {time : UInt64} {r : Rig σ τ} {reply : TraceReply τ}

theorem sampled_of_reply? (h : r.reply? time = some reply) : r.sampled time =
    ⟨(Design.signals r.design).design,
      if reply.failure.isSome then none else some reply.trace⟩ := by
  simp only [sampled, h]

theorem sampleActions_of_ok (h : r.reply? time = some reply) (hok : reply.failure = none) :
    r.sampleActions time = signalsActions (Design.signals r.design).log
      ++ replyActions (.sample time (Design.signals r.design).answer) reply := by
  simp only [sampleActions, h, hok, Option.map_none, Option.toList_none, List.append_nil]

theorem sampleActions_of_failed {cause : String} (h : r.reply? time = some reply)
    (hfailed : reply.failure = some cause) : r.sampleActions time =
      signalsActions (Design.signals r.design).log
        ++ replyActions (.sample time (Design.signals r.design).answer) reply
        ++ [.event (.sampleFailed time cause)] := by
  simp only [sampleActions, h, hfailed, Option.map_some, Option.toList_some]

theorem textOf_sampleActions (h : r.reply? time = some reply) :
    textOf (r.sampleActions time) = reply.pieces.flatten := by
  have htext (c : Bench.Call) :
      textOf (signalsActions (Design.signals r.design).log ++ replyActions c reply) =
        reply.pieces.flatten := by
    rw [Bench.textOf_append, (quiet_signalsActions _).textOf, Bench.textOf_replyActions,
      List.nil_append]
  cases hfailure : reply.failure with
  | none => rw [sampleActions_of_ok h hfailure, htext]
  | some cause =>
    rw [sampleActions_of_failed h hfailure, Bench.textOf_append, htext]
    exact List.append_nil _

theorem countP_sampleActions (h : r.reply? time = some reply) :
    (r.sampleActions time).countP Action.isSampleFailure =
      if reply.failure.isSome then 1 else 0 := by
  have hcount (c : Bench.Call) :
      (signalsActions (Design.signals r.design).log ++ replyActions c reply).countP
        Action.isSampleFailure = 0 := by
    rw [List.countP_append, (quiet_signalsActions _).countP, Bench.countP_replyActions]
  cases hfailure : reply.failure with
  | none =>
    rw [sampleActions_of_ok h hfailure, hcount]
    rfl
  | some cause =>
    rw [sampleActions_of_failed h hfailure, List.countP_append, hcount]
    rfl

theorem next_design (h : r.clocked.reply? time = some reply) : (r.next time).design =
    (Design.advance halfPeriod (Design.signals r.clocked.design).design).1 := by
  rw [next, sampled_of_reply? h]
  rfl

theorem periodActions_of_alike {q : Rig σ τ} {reply' : TraceReply τ} (hdesign : r.design = q.design)
    (hr : r.clocked.reply? time = some reply) (hq : q.clocked.reply? time = some reply')
    (halike : Bench.Alike reply reply') : r.periodActions time = q.periodActions time := by
  have hclocked : r.clocked.design = q.clocked.design := by simp only [clocked, hdesign]
  have hsampled : (r.clocked.sampled time).design = (q.clocked.sampled time).design := by
    rw [sampled_of_reply? hr, sampled_of_reply? hq, hclocked]
  simp only [periodActions, sampleActions, hr, hq, replyActions, halike.failure, halike.log,
    halike.pieces, hdesign, hclocked, hsampled]

end Reply

end Rig

namespace Bench

theorem reset_silent (b : Bench σ τ) : b.Silent b.reset := by
  rw [reset_eq]
  exact (Design.quiet_resetActions b.design).silent b _ .running

variable [Tracer τ]

theorem step_silent_or (b : Bench σ τ) : b.Silent b.step ∨ b.afterPeriod.Silent b.step := by
  by_cases h : b.phase = .running
  · cases hfinished : (Design.finished b.design).answer with
    | true =>
      rw [step_of_finished h hfinished]
      exact .inl ((quiet_callActions _ _).silent b _ .finished)
    | false =>
      rw [step_of_period h hfinished, ← afterPeriod]
      exact .inr b.afterPeriod.watch_silent
  · rw [step_of_ended h]
    exact .inl (Silent.refl b)

theorem afterPeriod_silent {b : Bench σ τ} (h : b.trace = none) : b.Silent b.afterPeriod := by
  have hreply : b.rig.clocked.reply? b.time = none := by
    rw [Rig.reply?, Rig.clocked, rig, h]
    rfl
  have hactions : b.rig.clocked.sampleActions b.time = [] := by
    simp only [Rig.sampleActions, hreply]
  have htrace : (b.rig.next b.time).trace = b.trace := by
    simp only [Rig.next, Rig.sampled, hreply]
    rfl
  refine ⟨htrace, ?_, ?_⟩
  · rw [afterPeriod, text_moved, Rig.textOf_periodActions, hactions]
    exact List.append_nil _
  · rw [afterPeriod, sampleFailures_moved, Rig.countP_periodActions, hactions]
    rfl

theorem step_silent {b : Bench σ τ} (h : b.trace = none) : b.Silent b.step :=
  b.step_silent_or.elim id (afterPeriod_silent h).trans

theorem Ending.silent {b b' : Bench σ τ} (h : b.Ending (stepsLeft 0) b')
    (hrunning : b.phase = .running) (hended : b'.phase ≠ .running) :
    ∃ n, (b.afterPeriods n).Silent b' ∧ b'.time.toNat = 5 * n ∧
      b'.journal.halfPeriods = b.journal.halfPeriods + n := by
  cases h with
  | @finished n hbound =>
    refine ⟨n, (quiet_callActions _ _).silent (b.afterPeriods n) _ .finished,
      timeAfter_toNat (lt_of_lt_stepsLeft hbound), ?_⟩
    rw [halfPeriods_moved, callsOf_callActions]
    exact b.halfPeriods_afterPeriods n
  | @timeout n limit hbound hlasts _ hlimit hlate =>
    refine ⟨n + 1, (quiet_watchdog _ limit).silent (b.afterPeriods (n + 1)) _ .timeout,
      timeAfter_toNat (timeout_fits hbound hlasts hlimit hlate), ?_⟩
    rw [halfPeriods_moved]
    exact b.halfPeriods_afterPeriods (n + 1)
  | running => exact absurd hrunning hended

end Bench
end HexBench
