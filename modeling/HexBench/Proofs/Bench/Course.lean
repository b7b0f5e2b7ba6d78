import HexBench.Bench.Run
import Mathlib.Algebra.Group.Nat.Defs
import Mathlib.Logic.Function.Iterate

set_option autoImplicit false

/-!
# The course of a run

What a design and its trace go through in a run, without the bench around them: reset, and then one
half period after the other. Each piece has the actions that it leaves in the journal, and each
operation of the bench is the piece that it carries out.
-/

namespace HexBench

open Wave (Tracer TraceReply)
open Bench (Action callActions halfPeriod replyActions resetEdges signalsActions)

namespace Bench

variable {σ τ : Type}

def moved (b : Bench σ τ) (design : σ) (trace : Option τ) (actions : List Action) : Bench σ τ :=
  { b with design, trace, journal := b.journal ++ actions }

theorem moved_moved (b : Bench σ τ) (d d' : σ) (t t' : Option τ) (xs ys : List Action) :
    (b.moved d t xs).moved d' t' ys = b.moved d' t' (xs ++ ys) := by
  have hjournal : b.journal ++ xs ++ ys = b.journal ++ (xs ++ ys) := by
    apply Array.toList_inj.mp
    simp
  simp only [moved, hjournal]

theorem moved_nil (b : Bench σ τ) : b.moved b.design b.trace [] = b := by
  simp [moved]

theorem note_eq (b : Bench σ τ) (a : Action) : b.note a = b.moved b.design b.trace [a] := by
  simp [note, moved]

end Bench

variable {σ τ : Type} [Design σ]

namespace Design

def asked (s : σ) : σ := (finished s).design

def toggled (s : σ) : σ := (setClock (!(clock s).answer) (clock s).design).1

def edge (s : σ) : σ := (evaluate (toggled s)).1

def edgeActions (s : σ) : List Action :=
  (clock s).log.map .designLog
    ++ (callActions (.setClock (!(clock s).answer))
        (setClock (!(clock s).answer) (clock s).design).2
      ++ callActions .evaluate (evaluate (toggled s)).2)

def edgesActions (n : Nat) (s : σ) : List Action :=
  (List.range n).flatMap fun k => edgeActions (edge^[k] s)

/-- The design once it was evaluated with its reset line low. -/
def held (s : σ) : σ := (evaluate (setReset false s).1).1

def heldActions (s : σ) : List Action :=
  callActions (.setReset false) (setReset false s).2
    ++ callActions .evaluate (evaluate (setReset false s).1).2

/-- The design once its reset line is high again, ten clock edges later. -/
def released (s : σ) : σ := (setReset true (edge^[10] (held s))).1

def releaseActions (s : σ) : List Action :=
  callActions (.setReset true) (setReset true (edge^[10] (held s))).2

def resetActions (s : σ) : List Action :=
  heldActions s ++ (edgesActions resetEdges (held s)
    ++ (releaseActions s ++ [.event .resetReleased]))

end Design

def Bench.timeAfter (n : Nat) : UInt64 := UInt64.ofNat (5 * n)

structure Rig (σ τ : Type) where
  design : σ
  trace : Option τ

def Bench.rig (b : Bench σ τ) : Rig σ τ := ⟨b.design, b.trace⟩

namespace Rig

variable [Tracer τ]

def clocked (r : Rig σ τ) : Rig σ τ := { r with design := Design.edge (Design.asked r.design) }

def reply? (time : UInt64) (r : Rig σ τ) : Option (TraceReply τ) :=
  r.trace.map (Tracer.sample time (Design.signals r.design).answer)

def sampled (time : UInt64) (r : Rig σ τ) : Rig σ τ :=
  match r.reply? time with
  | none => r
  | some reply =>
    ⟨(Design.signals r.design).design, if reply.failure.isSome then none else some reply.trace⟩

def sampleActions (time : UInt64) (r : Rig σ τ) : List Action :=
  match r.reply? time with
  | none => []
  | some reply =>
    signalsActions (Design.signals r.design).log
      ++ replyActions (.sample time (Design.signals r.design).answer) reply
      ++ (reply.failure.map fun cause => .event (.sampleFailed time cause)).toList

/-- Half a clock period, if the design is not finished. -/
def next (time : UInt64) (r : Rig σ τ) : Rig σ τ :=
  let r := r.clocked.sampled time
  { r with design := (Design.advance 5 r.design).1 }

def periodActions (time : UInt64) (r : Rig σ τ) : List Action :=
  callActions (.finished false) (Design.finished r.design).log
    ++ Design.edgeActions (Design.asked r.design) ++ r.clocked.sampleActions time
    ++ callActions (.advance halfPeriod)
      (Design.advance halfPeriod (r.clocked.sampled time).design).2

def after (r : Rig σ τ) : Nat → Rig σ τ
  | 0 => r
  | n + 1 => (r.after n).next (Bench.timeAfter n)

def periodsActions (r : Rig σ τ) (n : Nat) : List Action :=
  (List.range n).flatMap fun k => (r.after k).periodActions (Bench.timeAfter k)

theorem periodsActions_succ (r : Rig σ τ) (n : Nat) : r.periodsActions (n + 1) =
    r.periodsActions n ++ (r.after n).periodActions (Bench.timeAfter n) := by
  simp only [periodsActions, List.range_succ, List.flatMap_append, List.flatMap_singleton]

end Rig

namespace Bench

theorem setReset_eq (b : Bench σ τ) (level : Bool) :
    b.setReset level =
      b.moved (Design.setReset level b.design).1 b.trace
        (callActions (.setReset level) (Design.setReset level b.design).2) := rfl

theorem evaluate_eq (b : Bench σ τ) :
    b.evaluate = b.moved (Design.evaluate b.design).1 b.trace
      (callActions .evaluate (Design.evaluate b.design).2) := rfl

theorem toggleClock_eq (b : Bench σ τ) :
    b.toggleClock = b.moved (Design.edge b.design) b.trace (Design.edgeActions b.design) := by
  let clk := Design.clock b.design
  have hset : b.toggleClock = ((b.moved (Design.toggled b.design) b.trace
      (clk.log.map .designLog)).moved (Design.toggled b.design) b.trace
        (callActions (.setClock (!clk.answer))
          (Design.setClock (!clk.answer) clk.design).2)).evaluate := rfl
  rw [hset, evaluate_eq, moved_moved, moved_moved]
  rfl

theorem toggleClocks_eq (n : Nat) (b : Bench σ τ) :
    toggleClocks n b =
      b.moved (Design.edge^[n] b.design) b.trace (Design.edgesActions n b.design) := by
  induction n generalizing b with
  | zero => exact (moved_nil b).symm
  | succ n ih =>
    have hactions : Design.edgesActions (n + 1) b.design =
        Design.edgeActions b.design ++ Design.edgesActions n (Design.edge b.design) := by
      simp only [Design.edgesActions, List.range_succ_eq_map, List.flatMap_cons, List.flatMap_map]
      rfl
    rw [toggleClocks, ih, toggleClock_eq, moved_moved, hactions]
    rfl

theorem hold_eq (b : Bench σ τ) :
    (b.setReset false).evaluate =
      b.moved (Design.held b.design) b.trace (Design.heldActions b.design) := by
  rw [setReset_eq, evaluate_eq, moved_moved]
  rfl

theorem reset_eq (b : Bench σ τ) :
    b.reset = { b with phase := .running }.moved (Design.released b.design) b.trace
      (Design.resetActions b.design) := by
  have hset : (toggleClocks resetEdges ((b.setReset false).evaluate)).setReset true =
      b.moved (Design.released b.design) b.trace (Design.heldActions b.design
        ++ (Design.edgesActions resetEdges (Design.held b.design)
          ++ Design.releaseActions b.design)) := by
    rw [hold_eq, toggleClocks_eq, setReset_eq, moved_moved, moved_moved]
    rfl
  have hrunning : b.reset = ({ b with phase := .running }.moved (Design.released b.design) b.trace
      (Design.heldActions b.design ++ (Design.edgesActions resetEdges (Design.held b.design)
        ++ Design.releaseActions b.design))).note (.event .resetReleased) := by
    rw [reset, hset]
    rfl
  rw [hrunning, note_eq, moved_moved, List.append_assoc, List.append_assoc]
  rfl

variable [Tracer τ]

theorem sampleWaves_eq (b : Bench σ τ) :
    b.sampleWaves = b.moved (b.rig.sampled b.time).design (b.rig.sampled b.time).trace
      (b.rig.sampleActions b.time) := by
  cases htrace : b.trace with
  | none =>
    have hreply : b.rig.reply? b.time = none := by
      simp only [rig, Rig.reply?, htrace, Option.map_none]
    simp only [sampleWaves, htrace, Rig.sampled, Rig.sampleActions, hreply]
    exact (moved_nil b).symm
  | some trace =>
    let look := Design.signals b.design
    let reply := Tracer.sample b.time look.answer trace
    have hreply : b.rig.reply? b.time = some reply := by
      simp only [rig, Rig.reply?, htrace, Option.map_some, reply, look]
    let sampling := b.moved look.design none
      (signalsActions look.log ++ replyActions (.sample b.time look.answer) reply)
    have hsampling : b.sampleWaves = reply.failure.elim { sampling with trace := some reply.trace }
        fun cause => sampling.note (.event (.sampleFailed b.time cause)) := by
      have hnoted : ({ b with design := look.design, trace := none }.noteAll
          (signalsActions look.log)).noteAll
            (replyActions (.sample b.time look.answer) reply) = sampling :=
        moved_moved b _ _ _ _ _ _
      simp only [sampleWaves, htrace, ← hnoted]
      split
      · rename_i hfailure
        change reply.failure = none at hfailure
        rw [hfailure]
        rfl
      · rename_i cause hfailure
        change reply.failure = some cause at hfailure
        rw [hfailure]
        rfl
    rw [hsampling]
    cases hfailure : reply.failure with
    | none =>
      simp only [Rig.sampled, Rig.sampleActions, hreply, hfailure]
      exact congrArg (b.moved _ _) (List.append_nil _).symm
    | some cause =>
      simp only [Rig.sampled, Rig.sampleActions, hreply, hfailure]
      rw [Option.elim_some, note_eq]
      exact moved_moved _ _ _ _ _ _ _

end Bench
end HexBench
