import HexBench.Proofs.Bench.FullDisk
import HexBench.Proofs.Bench.Operations

set_option autoImplicit false

namespace HexBench

open Wave (Dump Line Sample Signal Sink Tracer Var changes declare linesAfter written)
open Bench (timeAfter stepsLeft halfPeriod)

theorem Bytes.ofString_append (s t : String) :
    ofString (s ++ t) = ofString s ++ ofString t := by
  rw [ofString, String.toByteArray_append, ByteArray.data_append, Array.toList_append]
  rfl

def levelAfter (level : Bool) (n : Nat) : Bool := if n % 2 = 0 then level else !level

theorem levelAfter_succ (level : Bool) (n : Nat) :
    levelAfter level (n + 1) = !levelAfter level n := by
  rcases Nat.mod_two_eq_zero_or_one n with heven | hodd
  · have hnext : (n + 1) % 2 = 1 := by omega
    simp [levelAfter, heven, hnext]
  · have hnext : (n + 1) % 2 = 0 := by omega
    simp [levelAfter, hodd, hnext]

theorem levelAfter_not (level : Bool) (n : Nat) :
    levelAfter (!level) n = !levelAfter level n := by
  rw [levelAfter, levelAfter]
  split <;> rfl

def lineSignals (clk rst : Bool) : List Signal := [.bit "clk" clk, .bit "rst_n" rst]

section Lines

variable {σ : Type} [Design σ] {Valid : σ → Prop} {clk rst : Bool} {s : σ}

namespace Design

/-- A valid state with the levels of its two lines. -/
structure OnLines (Valid : σ → Prop) (clk rst : Bool) (s : σ) : Prop where
  valid : Valid s
  clock : (Design.clock s).answer = clk
  reset : (Design.reset s).answer = rst

/-- In all states that a run reaches from a valid one, the two lines are registers that only the
bench writes, and the design shows nothing but them. -/
structure KeepsLines (Valid : σ → Prop) : Prop where
  setClock {clk rst : Bool} {s : σ} (level : Bool) : OnLines Valid clk rst s →
    OnLines Valid level rst (Design.setClock level s).1
  clock {clk rst : Bool} {s : σ} : OnLines Valid clk rst s →
    OnLines Valid clk rst (Design.clock s).design
  setReset {clk rst : Bool} {s : σ} (level : Bool) : OnLines Valid clk rst s →
    OnLines Valid clk level (Design.setReset level s).1
  reset {clk rst : Bool} {s : σ} : OnLines Valid clk rst s →
    OnLines Valid clk rst (Design.reset s).design
  evaluate {clk rst : Bool} {s : σ} : OnLines Valid clk rst s →
    OnLines Valid clk rst (Design.evaluate s).1
  finished {clk rst : Bool} {s : σ} : OnLines Valid clk rst s →
    OnLines Valid clk rst (Design.finished s).design
  advance {clk rst : Bool} {s : σ} (delta : UInt64) : OnLines Valid clk rst s →
    OnLines Valid clk rst (Design.advance delta s).1
  signals {s : σ} : Valid s → Design.signals s = (Design.clock s).lines Design.reset

theorem KeepsLines.shows (h : KeepsLines Valid) (hs : OnLines Valid clk rst s) :
    (Design.signals s).answer = lineSignals clk rst ∧
      OnLines Valid clk rst (Design.signals s).design := by
  have hclock := h.clock hs
  have hanswer : (Look.lines (Design.clock s) Design.reset).answer = lineSignals clk rst := by
    rw [Look.lines, lineSignals, hs.clock, hclock.reset]
  rw [h.signals hs.valid]
  exact ⟨hanswer, h.reset hclock⟩

theorem KeepsLines.edge (h : KeepsLines Valid) (hs : OnLines Valid clk rst s) :
    OnLines Valid (!clk) rst (Design.edge s) := by
  rw [Design.edge, Design.toggled, hs.clock]
  exact h.evaluate (h.setClock (!clk) (h.clock hs))

theorem KeepsLines.edges (h : KeepsLines Valid) (hs : OnLines Valid clk rst s) (n : Nat) :
    OnLines Valid (levelAfter clk n) rst (Design.edge^[n] s) := by
  induction n with
  | zero => exact hs
  | succ n ih =>
    rw [Function.iterate_succ_apply', levelAfter_succ]
    exact h.edge ih

theorem KeepsLines.released (h : KeepsLines Valid) (hs : OnLines Valid clk rst s) :
    OnLines Valid clk true (Design.released s) := by
  have hheld : OnLines Valid clk false (held s) := h.evaluate (h.setReset false hs)
  exact h.setReset true (h.edges hheld 10)

end Design

namespace Rig

open Design (KeepsLines OnLines)

variable {τ : Type} {r : Rig σ τ}

theorem clocked_onLines (h : KeepsLines Valid) (hr : OnLines Valid clk rst r.design) :
    OnLines Valid (!clk) rst r.clocked.design := h.edge (h.finished hr)

variable [Tracer τ]

theorem next_onLines (h : KeepsLines Valid) (hr : OnLines Valid clk rst r.design) (time : UInt64) :
    OnLines Valid (!clk) rst (r.next time).design := by
  have hclocked := clocked_onLines h hr
  refine h.advance 5 ?_
  rw [sampled]
  split
  · exact hclocked
  · exact (h.shows hclocked).2

theorem after_onLines (h : KeepsLines Valid) (hr : OnLines Valid clk rst r.design) (n : Nat) :
    OnLines Valid (levelAfter clk n) rst (r.after n).design := by
  induction n with
  | zero => exact hr
  | succ n ih =>
    rw [levelAfter_succ]
    exact next_onLines h ih (timeAfter n)

end Rig

end Lines

namespace Bench

variable {σ : Type} [Design σ] {b : Bench σ Dump} {d : Dump}

def samples (b : Bench σ Dump) (n : Nat) : List Sample :=
  (List.range n).map fun k => ⟨timeAfter k, (b.afterPeriods k).shown⟩

theorem Writes.afterPeriods (h : b.Writes d) (hroom : d.sink.room = none) (htime : b.time = 0)
    (n : Nat) : ∃ d', (b.afterPeriods n).Writes d' ∧ d'.sink.room = none ∧
      d.sampleAll (b.samples n) = some d' := by
  induction n with
  | zero =>
    rw [afterPeriods_zero htime]
    exact ⟨d, h, hroom, rfl⟩
  | succ n ih =>
    obtain ⟨d', hwrites, hroom', hsamples⟩ := ih
    obtain ⟨hok, hroom''⟩ := Dump.sample_unlimited hroom' ⟨timeAfter n, (b.afterPeriods n).shown⟩
    have hmore : b.samples (n + 1) = b.samples n ++ [⟨timeAfter n, (b.afterPeriods n).shown⟩] := by
      rw [samples, List.range_succ, List.map_append]
      rfl
    refine ⟨_, b.afterPeriods_succ n ▸ hwrites.afterPeriod_ok hok, hroom'', ?_⟩
    rw [hmore, Dump.sampleAll_append, hsamples, Option.bind_some, Dump.sampleAll, hok]
    rfl

theorem simulate_samples (design : σ) {d : Dump} (hroom : d.sink.room = none)
    (hempty : d.sink.text = []) (limit : Option UInt64)
    (hended : (simulate design (some d) limit).phase ≠ .running) :
    let start := ({ design, trace := some d, limit } : Bench σ Dump).reset
    let ended := simulate design (some d) limit
    ended.time.toNat = 5 * ended.journal.halfPeriods ∧
      ∃ d', d.sampleAll (start.samples ended.journal.halfPeriods) = some d' ∧
        ended.journal.text = d'.sink.text := by
  intro start ended
  have hstart : start = _ := reset_eq _
  have hrunning : start.phase = .running := by rw [hstart]; rfl
  have htime : start.time = 0 := by rw [hstart]; rfl
  have hreset : start.journal.halfPeriods = 0 := by
    rw [hstart, halfPeriods_moved, Design.callsOf_resetActions,
      count_of_idle (fun _ => Design.isIdle_of_mem_resetCalls) rfl]
    rfl
  have hwrites : start.Writes d :=
    (⟨rfl, hempty.symm⟩ : Writes { design, trace := some d, limit } d).silent (reset_silent _)
  have hfinish : ended = _ := finish_eq start.run
  have hphase : ended.phase = start.run.phase := by rw [hfinish]; rfl
  obtain ⟨n, hsilent, hn, hhalf⟩ := (run_ending hrunning htime).silent hrunning (hphase ▸ hended)
  obtain ⟨d', hwrites', _, hsamples⟩ := hwrites.afterPeriods hroom htime n
  have hclose : ended.journal.halfPeriods = n := by
    have hnone : (callsOf (closeActions start.run.trace)).count (.advance halfPeriod) = 0 := by
      rw [callsOf_closeActions]
      split <;> rfl
    rw [hfinish, halfPeriods_moved, callsOf_append, List.count_append, hnone, hhalf, hreset]
    exact Nat.zero_add n
  have htime' : ended.time = start.run.time := by rw [hfinish]; rfl
  rw [hclose, htime', hn]
  exact ⟨rfl, d', hsamples, start.run.finish_text.1.trans (hwrites'.silent hsilent).text⟩

theorem samples_of_onLines {Valid : σ → Prop} {clk : Bool} (h : Design.KeepsLines Valid)
    (hb : Design.OnLines Valid clk true b.design) (n : Nat) : b.samples n =
      (List.range n).map fun k => ⟨timeAfter k, lineSignals (levelAfter (!clk) k) true⟩ := by
  refine List.map_congr_left fun k _ => ?_
  have hafter := Rig.clocked_onLines h (Rig.after_onLines (r := b.rig) h hb k)
  have hshown : (b.afterPeriods k).shown = lineSignals (levelAfter (!clk) k) true := by
    rw [levelAfter_not]
    exact (h.shows hafter).1
  rw [hshown]

end Bench

namespace Wave

theorem declare_lines (clk rst : Bool) : declare 0 (lineSignals clk rst) =
    [⟨.bit "clk" clk, ['!']⟩, ⟨.bit "rst_n" rst, ['"']⟩] := by
  cases clk <;> cases rst <;> decide +kernel

theorem updates_clock (clk rst : Bool) :
    (declare 0 (lineSignals clk rst)).filterMap (Var.update? (lineSignals (!clk) rst)) =
      [⟨.bit "clk" (!clk), ['!']⟩] := by
  cases clk <;> cases rst <;> decide +kernel

theorem changes_clock (time : UInt64) (clk rst : Bool) :
    changes (declare 0 (lineSignals clk rst)) ⟨time, lineSignals (!clk) rst⟩ =
      [.stamp time, .scalar (!clk) ['!']] := by
  rw [changes, updates_clock]
  cases clk <;> rfl

theorem map_next_clock (time : UInt64) (clk rst : Bool) :
    (declare 0 (lineSignals clk rst)).map (Var.next ⟨time, lineSignals (!clk) rst⟩) =
      declare 0 (lineSignals (!clk) rst) := by
  change (declare 0 (lineSignals clk rst)).map
    (fun v => (v.update? (lineSignals (!clk) rst)).getD v) = _
  cases clk <;> cases rst <;> decide +kernel

theorem linesAfter_clock (level rst : Bool) (k n : Nat) :
    linesAfter (declare 0 (lineSignals (levelAfter level k) rst))
        ((List.range' (k + 1) n).map fun i =>
          ⟨timeAfter i, lineSignals (levelAfter level i) rst⟩) =
      (List.range' (k + 1) n).flatMap fun i =>
        [.stamp (timeAfter i), .scalar (levelAfter level i) ['!']] := by
  induction n generalizing k with
  | zero => rfl
  | succ n ih =>
    rw [List.range'_succ, List.map_cons, List.flatMap_cons, linesAfter, levelAfter_succ,
      changes_clock, map_next_clock, ← levelAfter_succ, ih]

end Wave

def levelText (level : Bool) : String := if level then "1" else "0"

def linesText (level : Bool) : String :=
  " $end\n$var wire 1 ! clk $end\n$var wire 1 \" rst_n $end\n$upscope $end\n"
    ++ "$enddefinitions $end\n#0\n$dumpvars\n" ++ levelText level ++ "!\n1\"\n$end\n"

def clockHeader (scope : String) (level : Bool) : String :=
  "$version archtest-dpi 0.1.0 $end\n$timescale 1ps $end\n$scope module " ++ scope
    ++ linesText level

def edgeText (k : Nat) (level : Bool) : String :=
  "#" ++ toString (5 * k) ++ "\n" ++ levelText level ++ "!\n"

/-- The waves of a number of half periods. In the even ones the clock has the given level. -/
def clockText (scope : String) (level : Bool) : Nat → Bytes
  | 0 => []
  | n + 1 => Bytes.ofString (clockHeader scope level)
    ++ (List.range' 1 n).flatMap fun k => Bytes.ofString (edgeText k (levelAfter level k))

namespace Wave

def clockLines (level : Bool) : List Line :=
  [.declaration 1 ['!'] "clk", .declaration 1 ['"'] "rst_n", .upscope, .endOfDefinitions, .stamp 0,
    .startOfValues, .scalar level ['!'], .scalar true ['"'], .endOfValues]

theorem header_clock (scope : String) (level : Bool) :
    Dump.header scope (declare 0 (lineSignals level true)) 0 =
      [.version, .timescale] ++ ([.scope scope] ++ clockLines level) := by
  have hrecord : Line.ofValue (.bit "clk" level) ['!'] = .scalar level ['!'] := by
    cases level <;> rfl
  rw [declare_lines]
  simp only [Dump.header, List.map_cons, List.map_nil, Var.declaration, Var.record, hrecord]
  rfl

theorem written_clockLines (level : Bool) :
    Bytes.ofString " $end\n" ++ written (clockLines level) = Bytes.ofString (linesText level) := by
  revert level
  decide +kernel

theorem written_clockHeader (scope : String) (level : Bool) :
    written (Dump.header scope (declare 0 (lineSignals level true)) 0) =
      Bytes.ofString (clockHeader scope level) := by
  have hfront : written [.version, .timescale] ++ Bytes.ofString "$scope module " = Bytes.ofString
      "$version archtest-dpi 0.1.0 $end\n$timescale 1ps $end\n$scope module " := by decide +kernel
  have hscope : written [.scope scope] = Bytes.ofString "$scope module " ++ Bytes.ofString scope
      ++ Bytes.ofString " $end\n" := by
    simp [written, Line.bytes, Line.pieces]
  have happend (s t u : String) : Bytes.ofString (s ++ t ++ u) =
      Bytes.ofString s ++ Bytes.ofString t ++ Bytes.ofString u := by
    rw [Bytes.ofString_append, Bytes.ofString_append]
  calc
    _ = written [.version, .timescale] ++ Bytes.ofString "$scope module " ++ Bytes.ofString scope
        ++ (Bytes.ofString " $end\n" ++ written (clockLines level)) := by
      rw [header_clock, written_append, written_append, hscope]
      simp only [List.append_assoc]
    _ = Bytes.ofString (clockHeader scope level) := by
      rw [hfront, written_clockLines]
      exact (happend _ _ _).symm

theorem written_edge {k : Nat} (hfits : 5 * k < 2 ^ 64) (level : Bool) :
    written [.stamp (timeAfter k), .scalar level ['!']] = Bytes.ofString (edgeText k level) := by
  have hcode : Bytes.ofString (String.ofList ['!']) ++ Bytes.ofString "\n" =
      Bytes.ofString "!\n" := by decide +kernel
  simp only [edgeText, Bytes.ofString_append, ← hcode]
  simp [written, Line.bytes, Line.pieces, Bench.timeAfter_toNat hfits, levelText]

theorem written_edges (level : Bool) {n : Nat} (hfits : 5 * n < 2 ^ 64) :
    written ((List.range' 1 n).flatMap fun k =>
        [.stamp (timeAfter k), .scalar (levelAfter level k) ['!']]) =
      (List.range' 1 n).flatMap fun k => Bytes.ofString (edgeText k (levelAfter level k)) := by
  rw [written_flatMap]
  refine List.flatMap_congr fun k hk => ?_
  have hk := List.mem_range'_1.mp hk
  exact written_edge (by omega) _

theorem sampleAll_clock {d d' : Dump} (hvars : d.vars = []) (hstarted : d.started = false)
    (hempty : d.sink.text = []) (level : Bool) {n : Nat} (hfits : 5 * n < 2 ^ 64)
    (h : d.sampleAll ((List.range n).map fun k =>
      ⟨timeAfter k, lineSignals (levelAfter level k) true⟩) = some d') :
    d'.sink.text = clockText d.scope level n := by
  cases n with
  | zero =>
    cases h
    exact hempty
  | succ n =>
    have hnames : ((lineSignals level true).map Signal.name).Nodup := by
      cases level <;> decide
    rw [List.range_eq_range', List.range'_succ, List.map_cons] at h
    have htext := Dump.sampleAll_distinct hvars hstarted hnames h
    rw [hempty, List.nil_append, linesAfter_clock level true 0 n, written_append] at htext
    rw [htext, clockText, ← written_clockHeader, ← written_edges level (by omega)]
    rfl

end Wave

namespace Fetcher

structure SameLines (f after : Fetcher) : Prop where
  clock : after.clock = f.clock
  reset : after.reset = f.reset
  stuck : after.stuck = f.stuck

theorem SameLines.trans {f g h : Fetcher} (hfg : f.SameLines g) (hgh : g.SameLines h) :
    f.SameLines h :=
  ⟨hgh.clock.trans hfg.clock, hgh.reset.trans hfg.reset, hgh.stuck.trans hfg.stuck⟩

theorem load_sameLines (f : Fetcher) : f.SameLines f.load.1 := by
  rw [load]
  split
  · split <;> exact ⟨rfl, rfl, rfl⟩
  · exact ⟨rfl, rfl, rfl⟩

theorem fetch_sameLines (f : Fetcher) : f.SameLines f.fetch := by
  rw [fetch]
  split <;> exact ⟨rfl, rfl, rfl⟩

theorem clockEdge_sameLines (f : Fetcher) : f.SameLines f.clockEdge := by
  let risen := { f with before := f.clock, rising := f.rising + 1 }
  have hrisen : f.SameLines risen := ⟨rfl, rfl, rfl⟩
  simp only [clockEdge]
  split
  · exact ⟨rfl, rfl, rfl⟩
  · split
    · split
      · exact ⟨rfl, rfl, rfl⟩
      · exact hrisen.trans risen.fetch_sameLines
    · exact ⟨rfl, rfl, rfl⟩

theorem evaluate_sameLines (f : Fetcher) : f.SameLines f.evaluate.1 := by
  let counted := { f with evaluations := f.evaluations + 1 }
  have hcounted : f.SameLines counted := ⟨rfl, rfl, rfl⟩
  exact hcounted.trans (counted.load_sameLines.trans counted.load.1.clockEdge_sameLines)

end Fetcher

theorem PlainFetcher.keepsLines :
    Design.KeepsLines fun f : PlainFetcher => f.inner.stuck = false where
  setClock {clk rst f} level hs := by
    have hfree : ¬ f.inner.stuck = true := hs.valid ▸ Bool.false_ne_true
    have hset : (Design.setClock level f).1 = ⟨{ f.inner with clock := level }⟩ :=
      congrArg PlainFetcher.mk (if_neg hfree)
    rw [hset]
    exact ⟨hs.valid, rfl, hs.reset⟩
  clock hs := hs
  setReset level hs := ⟨hs.valid, hs.clock, rfl⟩
  reset hs := hs
  evaluate {clk rst f} hs :=
    have hsame := f.inner.evaluate_sameLines
    ⟨hsame.stuck.trans hs.valid, hsame.clock.trans hs.clock, hsame.reset.trans hs.reset⟩
  finished hs := hs
  advance _ hs := hs
  signals _ := rfl

namespace Bench

open Design (KeepsLines OnLines)

variable {σ : Type} [Design σ] {Valid : σ → Prop}

theorem text_simulate_clock (h : KeepsLines Valid) {design : σ} (hvalid : Valid design) {d : Dump}
    (hvars : d.vars = []) (hstarted : d.started = false) (hroom : d.sink.room = none)
    (hempty : d.sink.text = []) (limit : Option UInt64)
    (hended : (simulate design (some d) limit).phase ≠ .running) :
    let ended := simulate design (some d) limit
    let n := ended.journal.halfPeriods
    ended.time.toNat = 5 * n ∧
      ended.journal.text = clockText d.scope (!(Design.clock design).answer) n := by
  intro ended n
  let start := ({ design, trace := some d, limit } : Bench σ Dump).reset
  obtain ⟨htime, d', hsamples, htext⟩ := simulate_samples design hroom hempty limit hended
  have hreleased : OnLines Valid (Design.clock design).answer true start.design := by
    rw [show start = _ from reset_eq _]
    exact h.released ⟨hvalid, rfl, rfl⟩
  have hfits : 5 * n < 2 ^ 64 := htime ▸ ended.time.toNat_lt
  rw [samples_of_onLines h hreleased] at hsamples
  have hclock := Wave.sampleAll_clock hvars hstarted hempty (!(Design.clock design).answer) hfits
    hsamples
  exact ⟨htime, htext.trans hclock⟩

/-- The waves of a run with a design that shows its two lines only. They are the same for all such
designs that start with the same level of the clock, and run for the same number of half periods. -/
theorem simulate_clock_wave (h : KeepsLines Valid) {design : σ} (hvalid : Valid design)
    (scope : String) (refusesFlush : Bool) (limit : Option UInt64)
    (hended : (simulate design (some ({ scope, sink := { refusesFlush } } : Dump)) limit).phase ≠
      .running) :
    let ended := simulate design (some ({ scope, sink := { refusesFlush } } : Dump)) limit
    let n := ended.journal.halfPeriods
    ended.time.toNat = 5 * n ∧
      ended.journal.text = clockText scope (!(Design.clock design).answer) n := by
  let dump : Dump := { scope, sink := { refusesFlush } }
  have hvars : dump.vars = [] := rfl
  have hempty : dump.sink.text = [] := rfl
  exact text_simulate_clock h hvalid hvars rfl rfl hempty limit hended

theorem simulate_clock_wave_three :
    let design : PlainFetcher := ⟨{ rule := { edges := some 2 } }⟩
    let dump : Dump := { scope := "tb_top", sink := { refusesFlush := false } }
    let ended := simulate design (some dump) none
    (Design.KeepsLines fun f : PlainFetcher => f.inner.stuck = false) ∧
      design.inner.stuck = false ∧ ended.phase ≠ .running ∧ ended.time.toNat = 15 ∧
      ended.journal.text = Bytes.ofString ("$version archtest-dpi 0.1.0 $end\n$timescale 1ps $end\n"
        ++ "$scope module tb_top $end\n$var wire 1 ! clk $end\n$var wire 1 \" rst_n $end\n"
        ++ "$upscope $end\n$enddefinitions $end\n#0\n$dumpvars\n1!\n1\"\n$end\n"
        ++ "#5\n0!\n#10\n1!\n") := by
  intro design dump ended
  have hended : ended.phase ≠ .running := by decide +kernel
  have hhalf : ended.journal.halfPeriods = 3 := by decide +kernel
  have hfree : design.inner.stuck = false := rfl
  obtain ⟨htime, htext⟩ := simulate_clock_wave PlainFetcher.keepsLines hfree "tb_top" false none
    hended
  rw [hhalf] at htime htext
  exact ⟨PlainFetcher.keepsLines, hfree, hended, htime, htext.trans (by decide +kernel)⟩

end Bench
end HexBench
