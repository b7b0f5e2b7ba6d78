import HexBench.Proofs.Wave.FailedHeader
import HexBench.Proofs.Wave.Replay

set_option autoImplicit false

namespace HexBench.Wave

/-- A time stamp with the values that stand under it. -/
structure Block where
  time : Nat
  values : List (List Char × Nat)
  deriving DecidableEq

namespace Statement

def time? : Statement → Option Nat
  | stamps time => some time
  | _ => none

def given? : Statement → Option (List Char × Nat)
  | gives code value => some (code, value)
  | _ => none

def declared? : Statement → Option Variable
  | declares width code name => some ⟨width, code, name⟩
  | _ => none

def valuesAhead : List Statement → List (List Char × Nat)
  | [] => []
  | stamps _ :: _ => []
  | gives code value :: rest => (code, value) :: valuesAhead rest
  | _ :: rest => valuesAhead rest

def blocks : List Statement → List Block
  | [] => []
  | stamps time :: rest => ⟨time, valuesAhead rest⟩ :: blocks rest
  | _ :: rest => blocks rest

@[simp] theorem valuesAhead_frames (rest : List Statement) :
    valuesAhead (frames :: rest) = valuesAhead rest := rfl

@[simp] theorem blocks_frames (rest : List Statement) : blocks (frames :: rest) = blocks rest := rfl

theorem map_time_blocks (xs : List Statement) :
    (blocks xs).map Block.time = xs.filterMap time? := by
  induction xs with
  | nil => rfl
  | cons x xs ih =>
    cases x with
    | stamps time => exact congrArg (time :: ·) ih
    | gives | declares | frames => exact ih

theorem valuesAhead_append {xs : List Statement} (h : xs.filterMap time? = [])
    (ys : List Statement) : valuesAhead (xs ++ ys) = xs.filterMap given? ++ valuesAhead ys := by
  induction xs with
  | nil => rfl
  | cons x xs ih =>
    cases x with
    | stamps time => cases h
    | gives code value => exact congrArg ((code, value) :: ·) (ih h)
    | declares | frames => exact ih h

theorem blocks_append {xs : List Statement} (h : xs.filterMap time? = []) (ys : List Statement) :
    blocks (xs ++ ys) = blocks ys := by
  induction xs with
  | nil => rfl
  | cons x xs ih =>
    cases x with
    | stamps time => cases h
    | gives | declares | frames => exact ih h

end Statement

open Statement (time? given? declared? valuesAhead blocks map_time_blocks valuesAhead_append
  blocks_append)

def valuesOf (code : List Char) (given : List (List Char × Nat)) : List Nat :=
  (given.filter fun g => g.1 = code).map Prod.snd

theorem valuesOf_append (code : List Char) (xs ys : List (List Char × Nat)) :
    valuesOf code (xs ++ ys) = valuesOf code xs ++ valuesOf code ys := by
  rw [valuesOf, List.filter_append, List.map_append]
  rfl

theorem valuesOf_eq_nil {code : List Char} {given : List (List Char × Nat)}
    (h : code ∉ given.map Prod.fst) : valuesOf code given = [] := by
  rw [valuesOf, List.map_eq_nil_iff, List.filter_eq_nil_iff]
  intro g hg hcode
  exact h (of_decide_eq_true hcode ▸ List.mem_map_of_mem hg)

namespace Var

def given (v : Var) : List Char × Nat := (v.id, v.shown)

def InRange (v : Var) : Prop := v.signal.value.toNat < 2 ^ v.signal.width.toNat

theorem shown_eq {v : Var} (h : v.InRange) : v.shown = v.signal.value.toNat := by
  rw [shown]
  split
  · rename_i hbit
    rw [InRange, hbit] at h
    exact Nat.mod_eq_of_lt h
  · rfl

theorem value_ne_of_update? {signals : List Signal} {v v' : Var}
    (h : v.update? signals = some v') : v'.signal.value ≠ v.signal.value := by
  rw [update?] at h
  split at h
  · cases h
  · split at h
    · cases h
    · rename_i hne
      cases h
      exact hne

theorem shown_ne_of_update? {signals : List Signal} {v v' : Var}
    (h : v.update? signals = some v') (hv : v.InRange) (hv' : v'.InRange) :
    v.shown ≠ v'.shown := by
  rw [shown_eq hv, shown_eq hv']
  exact fun hsame => value_ne_of_update? h (UInt64.toNat.inj hsame).symm

def Takes (v : Var) (s : Sample) : Prop :=
  ∀ value, s.value? v.signal.name = some value → value.toNat < 2 ^ v.signal.width.toNat

theorem InRange.next {v : Var} {s : Sample} (h : v.InRange) (hs : v.Takes s) :
    (v.next s).InRange := by
  rw [next_eq, InRange]
  cases hvalue : s.value? v.signal.name with
  | none => exact h
  | some value => exact hs value hvalue

theorem Takes.next {v : Var} {s : Sample} (h : v.Takes s) (before : Sample) :
    (v.next before).Takes s := by
  rw [next_eq]
  exact h

end Var

section Records

variable {vars : List Var}

theorem filterMap_records {α : Type} {f : Statement → Option α}
    (h : ∀ code value, f (.gives code value) = none) (vars : List Var) :
    (vars.map fun v => v.record.statement).filterMap f = [] := by
  refine List.filterMap_eq_nil_iff.mpr fun statement hmem => ?_
  obtain ⟨v, _, rfl⟩ := List.mem_map.mp hmem
  rw [v.statement_record]
  exact h v.id v.shown

theorem filterMap_declarations {α : Type} {f : Statement → Option α}
    (h : ∀ width code name, f (.declares width code name) = none) (vars : List Var) :
    (vars.map fun v => v.declaration.statement).filterMap f = [] := by
  refine List.filterMap_eq_nil_iff.mpr fun statement hmem => ?_
  obtain ⟨v, _, rfl⟩ := List.mem_map.mp hmem
  exact h _ _ _

theorem time?_records (vars : List Var) :
    (vars.map fun v => v.record.statement).filterMap time? = [] :=
  filterMap_records (fun _ _ => rfl) vars

theorem declared?_records (vars : List Var) :
    (vars.map fun v => v.record.statement).filterMap declared? = [] :=
  filterMap_records (fun _ _ => rfl) vars

theorem given?_records (vars : List Var) :
    (vars.map fun v => v.record.statement).filterMap given? = vars.map Var.given := by
  rw [List.filterMap_map, ← List.filterMap_eq_map]
  refine List.filterMap_congr fun v _ => ?_
  rw [Function.comp_apply, v.statement_record]
  rfl

theorem map_fst_given (vars : List Var) : (vars.map Var.given).map Prod.fst = vars.map Var.id :=
  List.map_map

theorem valuesOf_given (hids : (vars.map Var.id).Nodup) {v : Var} (hv : v ∈ vars) :
    valuesOf v.id (vars.map Var.given) = [v.shown] := by
  induction vars with
  | nil => cases hv
  | cons w vars ih =>
    rw [List.map_cons, List.nodup_cons] at hids
    rw [List.map_cons, ← List.singleton_append, valuesOf_append]
    rcases List.mem_cons.mp hv with rfl | hv
    · have hrest : valuesOf v.id (vars.map Var.given) = [] := by
        refine valuesOf_eq_nil ?_
        rw [map_fst_given]
        exact hids.1
      rw [hrest]
      simp [valuesOf, Var.given]
    · have hne : w.id ≠ v.id := fun h => hids.1 (h ▸ List.mem_map_of_mem hv)
      rw [ih hids.2 hv, valuesOf_eq_nil (by simpa [Var.given] using hne.symm)]
      rfl

theorem valuesOf_updates (hids : (vars.map Var.id).Nodup) (s : Sample) {v : Var} (hv : v ∈ vars) :
    valuesOf v.id ((vars.filterMap (Var.update? s.signals)).map Var.given) =
      ((v.update? s.signals).map Var.shown).toList := by
  cases hupdate : v.update? s.signals with
  | none =>
    refine valuesOf_eq_nil ?_
    rw [map_fst_given]
    exact id_notMem_updates hids hv hupdate
  | some v' =>
    have hnew : v' ∈ vars.filterMap (Var.update? s.signals) :=
      List.mem_filterMap.mpr ⟨v, hv, hupdate⟩
    rw [← Var.update?_id hupdate]
    exact valuesOf_given (hids.sublist (updates_sublist s vars)) hnew

end Records

section Changes

variable (vars : List Var)

/-- The blocks that samples behind the header leave in the text. -/
def blocksAfter (vars : List Var) : List Sample → List Block
  | [] => []
  | s :: rest =>
    let updates := vars.filterMap (Var.update? s.signals)
    (if updates.isEmpty then [] else [⟨s.time.toNat, updates.map Var.given⟩])
      ++ blocksAfter (vars.map (Var.next s)) rest

theorem valuesAhead_linesAfter (samples : List Sample) :
    valuesAhead ((linesAfter vars samples).map Line.statement ++ [.frames]) = [] := by
  induction samples generalizing vars with
  | nil => rfl
  | cons s rest ih =>
    rw [linesAfter, List.map_append, changes_statements, List.append_assoc]
    split
    · exact ih _
    · rfl

theorem blocks_linesAfter (samples : List Sample) :
    blocks ((linesAfter vars samples).map Line.statement ++ [.frames]) =
      blocksAfter vars samples := by
  induction samples generalizing vars with
  | nil => rfl
  | cons s rest ih =>
    have hrest := ih (vars.map (Var.next s))
    rw [linesAfter, List.map_append, changes_statements, List.append_assoc, blocksAfter]
    split
    · exact hrest
    · rw [List.cons_append, blocks, valuesAhead_append (time?_records _), given?_records,
        valuesAhead_linesAfter, List.append_nil, blocks_append (time?_records _), hrest]
      rfl

theorem times_blocksAfter (samples : List Sample) :
    ((blocksAfter vars samples).map Block.time).Sublist (samples.map fun s => s.time.toNat) := by
  induction samples generalizing vars with
  | nil => exact .slnil
  | cons s rest ih =>
    rw [blocksAfter, List.map_append, List.map_cons]
    split
    · exact (ih _).cons _
    · exact (ih _).cons_cons _

theorem values_blocksAfter {samples : List Sample} {b : Block}
    (hb : b ∈ blocksAfter vars samples) :
    b.values ≠ [] ∧ (b.values.map Prod.fst).Sublist (vars.map Var.id) := by
  induction samples generalizing vars with
  | nil => cases hb
  | cons s rest ih =>
    rw [blocksAfter] at hb
    rcases List.mem_append.mp hb with hb | hb
    · split at hb
      · cases hb
      · rename_i hsome
        rw [List.mem_singleton.mp hb, map_fst_given]
        exact ⟨by simpa using hsome, updates_sublist s vars⟩
    · rw [← Var.map_next_id s vars]
      exact ih _ hb

theorem given?_linesAfter_cons (s : Sample) (rest : List Sample) :
    ((linesAfter vars (s :: rest)).map Line.statement).filterMap given? =
      (vars.filterMap (Var.update? s.signals)).map Var.given ++
        ((linesAfter (vars.map (Var.next s)) rest).map Line.statement).filterMap given? := by
  rw [linesAfter, List.map_append, List.filterMap_append, changes_statements]
  congr 1
  cases vars.filterMap (Var.update? s.signals) with
  | nil => rfl
  | cons v updates => exact given?_records (v :: updates)

theorem codes_linesAfter {samples : List Sample} {code : List Char} (h : code ∈
      (((linesAfter vars samples).map Line.statement).filterMap given?).map Prod.fst) :
    code ∈ vars.map Var.id := by
  induction samples generalizing vars with
  | nil => cases h
  | cons s rest ih =>
    rw [given?_linesAfter_cons, List.map_append, map_fst_given] at h
    rcases List.mem_append.mp h with h | h
    · exact (updates_sublist s vars).subset h
    · rw [← Var.map_next_id s vars]
      exact ih _ h

variable {vars}

theorem isChain_valuesOf {samples : List Sample} (hids : (vars.map Var.id).Nodup) {v : Var}
    (hv : v ∈ vars) (hrange : v.InRange) (htakes : ∀ s ∈ samples, v.Takes s) :
    (v.shown :: valuesOf v.id
      (((linesAfter vars samples).map Line.statement).filterMap given?)).IsChain (· ≠ ·) := by
  induction samples generalizing vars v with
  | nil => exact .singleton _
  | cons s rest ih =>
    have hids' : ((vars.map (Var.next s)).map Var.id).Nodup := by rwa [Var.map_next_id]
    have hnext := ih hids' (List.mem_map_of_mem hv) (hrange.next (htakes s List.mem_cons_self))
      fun s' hs' => (htakes s' (List.mem_cons_of_mem s hs')).next s
    rw [Var.next_id] at hnext
    rw [given?_linesAfter_cons, valuesOf_append, valuesOf_updates hids s hv]
    cases hupdate : v.update? s.signals with
    | none =>
      have hsame : v.next s = v := by rw [Var.next, hupdate, Option.getD_none]
      rwa [hsame] at hnext
    | some v' =>
      have hrange' := hrange.next (htakes s List.mem_cons_self)
      rw [Var.next_of_update? hupdate] at hnext hrange'
      exact .cons_cons (Var.shown_ne_of_update? hupdate hrange hrange') hnext

theorem isChain_given {samples : List Sample} (hids : (vars.map Var.id).Nodup)
    (hrange : ∀ v ∈ vars, v.InRange) (htakes : ∀ v ∈ vars, ∀ s ∈ samples, v.Takes s)
    (code : List Char) : (valuesOf code (vars.map Var.given ++
      ((linesAfter vars samples).map Line.statement).filterMap given?)).IsChain (· ≠ ·) := by
  by_cases hcode : code ∈ vars.map Var.id
  · obtain ⟨v, hv, rfl⟩ := List.mem_map.mp hcode
    rw [valuesOf_append, valuesOf_given hids hv]
    exact isChain_valuesOf hids hv (hrange v hv) (htakes v hv)
  · rw [valuesOf_eq_nil]
    · exact .nil
    · rw [List.map_append, map_fst_given]
      exact fun h => (List.mem_append.mp h).elim hcode fun h => hcode (codes_linesAfter vars h)

end Changes

section Text

variable (scope : String) (vars : List Var) (time : UInt64) (samples : List Sample)

/-- What the lines of a dump say, from the header to the empty line behind the last sample. -/
def statementsOf : List Statement :=
  (Dump.header scope vars time ++ linesAfter vars samples).map Line.statement ++ [.frames]

theorem declared?_linesAfter :
    ((linesAfter vars samples).map Line.statement).filterMap declared? = [] := by
  induction samples generalizing vars with
  | nil => rfl
  | cons s rest ih =>
    rw [linesAfter, List.map_append, List.filterMap_append, ih, changes_statements]
    split
    · rfl
    · exact List.append_eq_nil_iff.mpr ⟨declared?_records _, rfl⟩

theorem declared?_statementsOf :
    (statementsOf scope vars time samples).filterMap declared? = vars.map Var.declared := by
  have hdeclarations : (vars.map fun v => v.declaration.statement).filterMap declared? =
      vars.map Var.declared := by
    rw [List.filterMap_map, ← List.filterMap_eq_map]
    rfl
  simp only [statementsOf, List.map_append, List.filterMap_append, header_statements,
    hdeclarations, declared?_records, declared?_linesAfter, List.append_assoc]
  exact List.append_nil _

theorem given?_statementsOf :
    (statementsOf scope vars time samples).filterMap given? = vars.map Var.given ++
      ((linesAfter vars samples).map Line.statement).filterMap given? := by
  have hdeclarations : (vars.map fun v => v.declaration.statement).filterMap given? = [] :=
    filterMap_declarations (fun _ _ _ => rfl) vars
  simp only [statementsOf, List.map_append, List.filterMap_append, header_statements,
    hdeclarations, given?_records, List.append_assoc]
  exact congrArg (vars.map Var.given ++ ·) (List.append_nil _)

theorem blocks_statementsOf : blocks (statementsOf scope vars time samples) =
    ⟨time.toNat, vars.map Var.given⟩ :: blocksAfter vars samples := by
  have hdeclarations : (vars.map fun v => v.declaration.statement).filterMap time? = [] :=
    filterMap_declarations (fun _ _ _ => rfl) vars
  let opening : List Statement := [.frames, .frames, .frames]
    ++ (vars.map fun v => v.declaration.statement) ++ [.frames, .frames]
  have hopening : opening.filterMap time? = [] := by
    rw [List.filterMap_append, List.filterMap_append, hdeclarations]
    rfl
  have hsplit : statementsOf scope vars time samples =
      opening ++ .stamps time.toNat :: .frames ::
        ((vars.map fun v => v.record.statement) ++ .frames ::
          ((linesAfter vars samples).map Line.statement ++ [.frames])) := by
    simp [statementsOf, header_statements, opening]
  rw [hsplit, blocks_append hopening, blocks, Statement.valuesAhead_frames,
    valuesAhead_append (time?_records vars), given?_records, Statement.valuesAhead_frames,
    valuesAhead_linesAfter, List.append_nil, Statement.blocks_frames,
    blocks_append (time?_records vars), Statement.blocks_frames, blocks_linesAfter]

end Text

namespace Dump

theorem ofText?_sampleAll {scope : String} (hscope : '\n' ∉ scope.toList) {sink : Sink}
    (hsink : sink.pieces = #[]) {first : Sample} {later : List Sample}
    (hnames : ∀ signal ∈ first.signals, Solid signal.name.toList)
    (hdistinct : (first.signals.map Signal.name).Nodup) {d : Dump}
    (hd : ({ scope, sink } : Dump).sampleAll (first :: later) = some d) :
    Statement.ofText? d.sink.text =
      some (statementsOf scope (declare 0 first.signals) first.time later) := by
  let vars := declare 0 first.signals
  have hsolid : ∀ v ∈ vars, Solid v.id ∧ Solid v.signal.name.toList := fun v hv =>
    solid_of_mem_declare hnames hv
  have htext : d.sink.text = written (header scope vars first.time ++ linesAfter vars later) := by
    rw [sampleAll_distinct rfl rfl hdistinct hd, Sink.text, hsink]
    rfl
  rw [htext, ofText?_written (wellFormed_text hscope hsolid first.time later)]
  rfl

/-- The text of a dump has the stamps of some of its samples, in order, and the values of all
variables under the first of them. Under each later one stand one or more values, those of different
variables in the order of the header; and a variable is never given a value that it has. A close
writes nothing. -/
theorem sampleAll_changes_only {scope : String} (hscope : '\n' ∉ scope.toList) {sink : Sink}
    (hsink : sink.pieces = #[]) {first : Sample} {later : List Sample}
    (hnames : ∀ signal ∈ first.signals, Solid signal.name.toList)
    (hdistinct : (first.signals.map Signal.name).Nodup)
    (htimes : (first :: later).Pairwise (·.time < ·.time))
    (hfits : ∀ s ∈ first :: later, ∀ signal ∈ s.signals, ∀ declared ∈ first.signals,
      signal.name = declared.name → signal.value.toNat < 2 ^ declared.width.toNat) :
    (sink.room = none → ({ scope, sink } : Dump).sampleAll (first :: later) ≠ none) ∧
    ∀ d, ({ scope, sink } : Dump).sampleAll (first :: later) = some d →
      ∃ statements, Statement.ofText? d.sink.text = some statements ∧
        let codes := (statements.filterMap declared?).map Variable.code
        codes.Nodup ∧ codes.length = first.signals.length ∧
        (statements.filterMap time?).Pairwise (· < ·) ∧
        (∀ time ∈ statements.filterMap time?, ∃ s ∈ first :: later, time = s.time.toNat) ∧
        (∃ values rest, blocks statements = ⟨first.time.toNat, values⟩ :: rest ∧
          values.map Prod.fst = codes ∧ ∀ b ∈ rest, b.values ≠ []) ∧
        (∀ b ∈ blocks statements, (b.values.map Prod.fst).Sublist codes) ∧
        (∀ code, (valuesOf code (statements.filterMap given?)).IsChain (· ≠ ·)) ∧
        d.close.dump.sink.pieces = d.sink.pieces := by
  refine ⟨fun hroom => Option.isSome_iff_ne_none.mp (sampleAll_unlimited hroom _), ?_⟩
  intro d hd
  let vars := declare 0 first.signals
  have hids : (vars.map Var.id).Nodup := declare_nodup first.signals
  have hsignals : ∀ v ∈ vars, v.signal ∈ first.signals := fun _ => signal_mem_of_mem_declare
  have hcodes : (vars.map Var.declared).map Variable.code = vars.map Var.id := List.map_map
  have hstamps : (statementsOf scope vars first.time later).filterMap time? =
      first.time.toNat :: (blocksAfter vars later).map Block.time := by
    rw [← map_time_blocks, blocks_statementsOf]
    rfl
  have hsublist : (first.time.toNat :: (blocksAfter vars later).map Block.time).Sublist
      ((first :: later).map fun s => s.time.toNat) := (times_blocksAfter vars later).cons_cons _
  refine ⟨statementsOf scope vars first.time later,
    ofText?_sampleAll hscope hsink hnames hdistinct hd, ?_⟩
  rw [declared?_statementsOf, hcodes, hstamps, blocks_statementsOf, given?_statementsOf]
  refine ⟨hids, ?_, ?_, ?_, ?_, ?_, ?_, rfl⟩
  · rw [List.length_map]
    exact declare_length 0 first.signals
  · have hincreasing : ((first :: later).map fun s => s.time.toNat).Pairwise (· < ·) :=
      List.pairwise_map.mpr (htimes.imp fun h => UInt64.lt_iff_toNat_lt.mp h)
    exact hincreasing.sublist hsublist
  · intro time htime
    obtain ⟨s, hs, rfl⟩ := List.mem_map.mp (hsublist.subset htime)
    exact ⟨s, hs, rfl⟩
  · exact ⟨_, _, rfl, map_fst_given vars, fun b hb => (values_blocksAfter vars hb).1⟩
  · intro b hb
    rcases List.mem_cons.mp hb with rfl | hb
    · rw [map_fst_given]
    · exact (values_blocksAfter vars hb).2
  · refine isChain_given hids (fun v hv => ?_) fun v hv s hs value hvalue => ?_
    · exact hfits first List.mem_cons_self v.signal (hsignals v hv) v.signal (hsignals v hv) rfl
    · obtain ⟨signal, hfind, rfl⟩ := Option.map_eq_some_iff.mp hvalue
      exact hfits s (List.mem_cons_of_mem first hs) signal (List.mem_of_find?_eq_some hfind)
        v.signal (hsignals v hv) (by simpa using List.find?_some hfind)

/-- The counter is away from the second sample, and comes back unchanged in the third one, which
leaves no stamp. -/
theorem sampleAll_changes_only_away :
    let first : Sample := ⟨0, [.bit "clk" false, ⟨"pc", 8, 5⟩]⟩
    let later : List Sample :=
      [⟨5, [.bit "clk" true]⟩, ⟨10, [.bit "clk" true, ⟨"pc", 8, 5⟩]⟩, ⟨15, [⟨"pc", 8, 255⟩]⟩]
    (first.signals.map Signal.name).Nodup ∧
    (first :: later).Pairwise (·.time < ·.time) ∧
    ∃ d statements, ({ scope := "top" } : Dump).sampleAll (first :: later) = some d ∧
      Statement.ofText? d.sink.text = some statements ∧
      blocks statements = [⟨0, [(['!'], 0), (['"'], 5)]⟩, ⟨5, [(['!'], 1)]⟩, ⟨15, [(['"'], 255)]⟩] ∧
      (statements.filterMap time?).Pairwise (· < ·) ∧
      (valuesOf ['"'] (statements.filterMap given?)).IsChain (· ≠ ·) ∧
      d.close.dump.sink.pieces = d.sink.pieces := by
  intro first later
  have hdistinct : (first.signals.map Signal.name).Nodup := by decide
  have htimes : (first :: later).Pairwise (·.time < ·.time) := by decide
  have hnames : ∀ signal ∈ first.signals, Solid signal.name.toList := by
    simp [first, Solid, Signal.bit]
  obtain ⟨hwritten, hchanges⟩ := @sampleAll_changes_only "top" (by decide) {} rfl first later
    hnames hdistinct htimes (by decide)
  obtain ⟨d, hd⟩ := Option.ne_none_iff_exists'.mp (hwritten rfl)
  obtain ⟨statements, hread, _, _, hstamps, _, _, _, hchain, hclose⟩ := hchanges d hd
  have hstatements : statements = statementsOf "top" (declare 0 first.signals) 0 later :=
    Option.some.inj (hread.symm.trans (ofText?_sampleAll (by decide) rfl hnames hdistinct hd))
  have hblocks : blocks statements =
      [⟨0, [(['!'], 0), (['"'], 5)]⟩, ⟨5, [(['!'], 1)]⟩, ⟨15, [(['"'], 255)]⟩] := by
    rw [hstatements, blocks_statementsOf]
    decide +kernel
  exact ⟨hdistinct, htimes, d, statements, hd, hread, hblocks, hstamps, hchain _, hclose⟩

end Dump
end HexBench.Wave
