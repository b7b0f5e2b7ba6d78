import HexBench.Proofs.Wave.Reading
import HexBench.Proofs.Wave.Table
import Mathlib.Algebra.Group.Nat.Defs

set_option autoImplicit false

/-!
# The text of a dump gives its samples back

The reader of the text and the table of the writer go the same way: up to the time of a sample the
reader has for every variable what the table held after that sample, and what is written under later
stamps does not count yet.
-/

namespace HexBench.Wave

namespace Var

def declared (v : Var) : Variable := ⟨v.signal.width.toNat, v.id, v.signal.name.toList⟩

def shown (v : Var) : Nat :=
  if v.signal.width = 1 then v.signal.value.toNat % 2 else v.signal.value.toNat

theorem statement_record (v : Var) : v.record.statement = .gives v.id v.shown := by
  rw [record, Line.ofValue, shown]
  split
  · have hbit : (v.signal.value % 2 == 1).toNat = v.signal.value.toNat % 2 := by
      have hmod : (v.signal.value % 2).toNat = v.signal.value.toNat % 2 := UInt64.toNat_mod _ _
      by_cases hone : v.signal.value % 2 = 1
      · rw [← hmod, hone]
        rfl
      · have hne : (v.signal.value % 2).toNat ≠ 1 := fun h => hone (UInt64.toNat.inj h)
        rw [beq_false_of_ne hone, Bool.toNat_false]
        omega
    rw [Line.statement, hbit]
  · rfl

theorem shown_mod (v : Var) : v.shown % 2 ^ v.signal.width.toNat =
    v.signal.value.toNat % 2 ^ v.signal.width.toNat := by
  rw [shown]
  split
  · rename_i hbit
    rw [hbit]
    exact Nat.mod_mod _ _
  · rfl

theorem wellFormed_record {v : Var} (h : Solid v.id) : v.record.WellFormed := by
  rw [record, Line.ofValue]
  split <;> exact h

theorem next_declared (s : Sample) (v : Var) : (v.next s).declared = v.declared := by
  rw [next_eq]
  rfl

theorem map_next_declared (s : Sample) (vars : List Var) :
    (vars.map (Var.next s)).map Var.declared = vars.map Var.declared := by
  rw [List.map_map]
  exact List.map_congr_left fun v _ => v.next_declared s

end Var

theorem solid_declare {signals : List Signal} {v : Var} (h : v ∈ declare 0 signals) :
    Solid v.id := by
  have hid : v.id ∈ (declare 0 signals).map Var.id := List.mem_map_of_mem h
  rw [declare_ids] at hid
  obtain ⟨index, _, hindex⟩ := List.mem_map.mp hid
  rw [← hindex]
  exact solid_identifier index

section Reader

variable {now : Nat} {p : Playback} {vars : List Var}

/-- The reader knows the variables of the table, with the values in it. -/
structure Shows (vars : List Var) (p : Playback) : Prop where
  known : p.known = vars.map Var.declared
  values : ∀ v ∈ vars, p.values v.id = some v.shown

theorem take_record {time : Nat} {v : Var} (htime : p.time = some time)
    (hv : v.declared ∈ p.known) : p.take now v.record.statement =
      if time ≤ now then some { p with values := Function.update p.values v.id (some v.shown) }
      else some p := by
  have hany : (p.known.any fun w => w.code == v.id) = true :=
    List.any_eq_true.mpr ⟨v.declared, hv, beq_self_eq_true v.id⟩
  rw [v.statement_record, Playback.take, htime]
  exact if_pos hany

theorem follow_records_past {time : Nat} (htime : p.time = some time) (hpast : time ≤ now)
    (hdeclared : ∀ v ∈ vars, v.declared ∈ p.known) (hids : (vars.map Var.id).Nodup) :
    ∃ values, p.follow now (vars.map fun v => v.record.statement) = some { p with values } ∧
      (∀ v ∈ vars, values v.id = some v.shown) ∧
      ∀ code, code ∉ vars.map Var.id → values code = p.values code := by
  induction vars generalizing p with
  | nil => exact ⟨p.values, rfl, fun v hv => absurd hv List.not_mem_nil, fun code _ => rfl⟩
  | cons v rest ih =>
    rw [List.map_cons, List.nodup_cons] at hids
    obtain ⟨hv, hrest⟩ := hids
    have htake : p.take now v.record.statement =
        some { p with values := Function.update p.values v.id (some v.shown) } := by
      rw [take_record htime (hdeclared v List.mem_cons_self), if_pos hpast]
    obtain ⟨values, hfollow, hshown, hkept⟩ :=
      ih (p := { p with values := Function.update p.values v.id (some v.shown) }) htime
        (fun w hw => hdeclared w (List.mem_cons_of_mem v hw)) hrest
    refine ⟨values, ?_, ?_, ?_⟩
    · rw [List.map_cons, Playback.follow, List.foldlM_cons, htake]
      exact hfollow
    · intro w hw
      -- The later records have other codes, and leave the first value in place.
      rcases List.mem_cons.mp hw with rfl | hw
      · rw [hkept w.id hv]
        exact Function.update_self _ _ _
      · exact hshown w hw
    · intro code hcode
      rw [List.map_cons, List.mem_cons, not_or] at hcode
      rw [hkept code hcode.2]
      exact Function.update_of_ne hcode.1 _ _

theorem follow_records_future {time : Nat} (htime : p.time = some time) (hfuture : now < time)
    (hdeclared : ∀ v ∈ vars, v.declared ∈ p.known) :
    p.follow now (vars.map fun v => v.record.statement) = some p := by
  induction vars with
  | nil => rfl
  | cons v rest ih =>
    rw [List.map_cons, Playback.follow, List.foldlM_cons,
      take_record htime (hdeclared v List.mem_cons_self), if_neg (by omega)]
    exact ih fun w hw => hdeclared w (List.mem_cons_of_mem v hw)

theorem follow_declarations : p.follow now (vars.map fun v => v.declaration.statement) =
    some { p with known := p.known ++ vars.map Var.declared } := by
  induction vars generalizing p with
  | nil =>
    rw [List.map_nil, List.map_nil, List.append_nil]
    rfl
  | cons v rest ih =>
    have hrest := ih (p := { p with known := p.known ++ [v.declared] })
    rw [List.append_assoc] at hrest
    exact hrest

theorem changes_statements (s : Sample) : (changes vars s).map Line.statement =
    if (vars.filterMap (Var.update? s.signals)).isEmpty then []
    else .stamps s.time.toNat ::
      (vars.filterMap (Var.update? s.signals)).map fun v => v.record.statement := by
  rw [changes]
  cases vars.filterMap (Var.update? s.signals) with
  | nil => rfl
  | cons v rest =>
    have hrecords : ((v :: rest).map Var.record).map Line.statement =
        (v :: rest).map fun v => v.record.statement := List.map_map
    rw [← hrecords]
    rfl

theorem updates_declared (s : Sample) (hknown : p.known = vars.map Var.declared) :
    ∀ v ∈ vars.filterMap (Var.update? s.signals), v.declared ∈ p.known := by
  intro v' hv'
  obtain ⟨v, hv, hupdate⟩ := List.mem_filterMap.mp hv'
  rw [hknown, ← Var.next_of_update? hupdate, Var.next_declared]
  exact List.mem_map_of_mem hv

theorem follow_changes_past {s : Sample} (hpast : s.time.toNat ≤ now)
    (hknown : p.known = vars.map Var.declared) (hids : (vars.map Var.id).Nodup) :
    ∃ q, p.follow now ((changes vars s).map Line.statement) = some q ∧ q.known = p.known ∧
      (∀ v ∈ vars.filterMap (Var.update? s.signals), q.values v.id = some v.shown) ∧
      ∀ code, code ∉ (vars.filterMap (Var.update? s.signals)).map Var.id →
        q.values code = p.values code := by
  rw [changes_statements]
  split
  · rename_i hempty
    rw [List.isEmpty_iff.mp hempty]
    exact ⟨p, rfl, rfl, fun v hv => absurd hv List.not_mem_nil, fun code _ => rfl⟩
  · obtain ⟨values, hfollow, hshown, hkept⟩ := follow_records_past
      (p := { p with time := some s.time.toNat }) rfl hpast (updates_declared s hknown)
      (hids.sublist (updates_sublist s vars))
    exact ⟨_, hfollow, rfl, hshown, hkept⟩

theorem follow_changes_future {s : Sample} (hfuture : now < s.time.toNat)
    (hknown : p.known = vars.map Var.declared) :
    ∃ time, p.follow now ((changes vars s).map Line.statement) = some { p with time } := by
  rw [changes_statements]
  split
  · exact ⟨p.time, rfl⟩
  · exact ⟨_, follow_records_future (p := { p with time := some s.time.toNat }) rfl hfuture
      (updates_declared s hknown)⟩

theorem Shows.follow_changes (h : Shows vars p) (hids : (vars.map Var.id).Nodup) {s : Sample}
    (hpast : s.time.toNat ≤ now) :
    ∃ q, p.follow now ((changes vars s).map Line.statement) = some q ∧
      Shows (vars.map (Var.next s)) q := by
  obtain ⟨q, hfollow, hknown, hshown, hkept⟩ := follow_changes_past hpast h.known hids
  refine ⟨q, hfollow, ?_, ?_⟩
  · rw [hknown, h.known, Var.map_next_declared]
  · intro v' hv'
    obtain ⟨v, hv, rfl⟩ := List.mem_map.mp hv'
    cases hupdate : v.update? s.signals with
    | some v' =>
      rw [Var.next_of_update? hupdate]
      exact hshown v' (List.mem_filterMap.mpr ⟨v, hv, hupdate⟩)
    -- No record has the code of this variable: the codes are distinct.
    | none =>
      have hsame : v.next s = v := by rw [Var.next, hupdate, Option.getD_none]
      rw [hsame, hkept v.id (id_notMem_updates hids hv hupdate)]
      exact h.values v hv

theorem Shows.follow_past (h : Shows vars p) (hids : (vars.map Var.id).Nodup)
    {samples : List Sample} (hpast : ∀ s ∈ samples, s.time.toNat ≤ now) :
    ∃ q, p.follow now ((linesAfter vars samples).map Line.statement) = some q ∧
      Shows (vars.map (Var.run samples)) q := by
  induction samples generalizing vars p with
  | nil =>
    have hrun : Var.run [] = id := rfl
    rw [hrun, List.map_id]
    exact ⟨p, rfl, h⟩
  | cons s rest ih =>
    obtain ⟨q, hfollow, hshows⟩ := h.follow_changes hids (hpast s List.mem_cons_self)
    obtain ⟨q', hfollow', hshows'⟩ := ih hshows (by rwa [Var.map_next_id])
      fun s' hs' => hpast s' (List.mem_cons_of_mem s hs')
    rw [List.map_map] at hshows'
    refine ⟨q', ?_, hshows'⟩
    rw [linesAfter, List.map_append, Playback.follow_append, hfollow]
    exact hfollow'

theorem follow_future (hknown : p.known = vars.map Var.declared) {samples : List Sample}
    (hfuture : ∀ s ∈ samples, now < s.time.toNat) :
    ∃ time, p.follow now ((linesAfter vars samples).map Line.statement) =
      some { p with time } := by
  induction samples generalizing vars p with
  | nil => exact ⟨p.time, rfl⟩
  | cons s rest ih =>
    obtain ⟨time, hfollow⟩ := follow_changes_future (hfuture s List.mem_cons_self) hknown
    have hnext : p.known = (vars.map (Var.next s)).map Var.declared := by
      rw [Var.map_next_declared, hknown]
    obtain ⟨time', hfollow'⟩ := ih (p := { p with time }) hnext fun s' hs' =>
      hfuture s' (List.mem_cons_of_mem s hs')
    refine ⟨time', ?_⟩
    rw [linesAfter, List.map_append, Playback.follow_append, hfollow]
    exact hfollow'

theorem header_statements (scope : String) (vars : List Var) (time : UInt64) :
    (Dump.header scope vars time).map Line.statement =
      [.frames, .frames, .frames] ++ (vars.map fun v => v.declaration.statement)
        ++ [.frames, .frames, .stamps time.toNat, .frames]
        ++ (vars.map fun v => v.record.statement) ++ [.frames] := by
  simp only [Dump.header, List.map_append, List.map_map, List.map_cons, List.map_nil]
  rfl

theorem follow_header (hids : (vars.map Var.id).Nodup) (scope : String) {time : UInt64}
    (hpast : time.toNat ≤ now) :
    ∃ q, Playback.follow now {} ((Dump.header scope vars time).map Line.statement) = some q ∧
      Shows vars q := by
  obtain ⟨values, hfollow, hshown, _⟩ := follow_records_past
    (p := { known := vars.map Var.declared, time := some time.toNat }) rfl hpast
    (fun v hv => List.mem_map_of_mem hv) hids
  refine ⟨{ known := vars.map Var.declared, time := some time.toNat, values }, ?_, rfl, hshown⟩
  have hopening : Playback.follow now {} [.frames, .frames, .frames] = some {} := rfl
  have hstamp (p : Playback) : p.follow now [.frames, .frames, .stamps time.toNat, .frames] =
      some { p with time := some time.toNat } := rfl
  rw [header_statements, Playback.follow_append, Playback.follow_append, Playback.follow_append,
    Playback.follow_append, hopening, Option.bind_some, follow_declarations, Option.bind_some,
    hstamp, Option.bind_some]
  simp only [List.nil_append]
  rw [hfollow]
  rfl

end Reader

section Text

variable {vars : List Var}

theorem wellFormed_changes (h : ∀ v ∈ vars, Solid v.id) (s : Sample) :
    ∀ l ∈ changes vars s, l.WellFormed := by
  intro l hl
  rw [changes] at hl
  split at hl
  · cases hl
  · rcases List.mem_cons.mp hl with rfl | hl
    · trivial
    · obtain ⟨v', hv', rfl⟩ := List.mem_map.mp hl
      obtain ⟨v, hv, hupdate⟩ := List.mem_filterMap.mp hv'
      refine Var.wellFormed_record ?_
      rw [← Var.next_of_update? hupdate, Var.next_id]
      exact h v hv

theorem wellFormed_linesAfter (h : ∀ v ∈ vars, Solid v.id) (samples : List Sample) :
    ∀ l ∈ linesAfter vars samples, l.WellFormed := by
  induction samples generalizing vars with
  | nil =>
    intro l hl
    cases hl
  | cons s rest ih =>
    intro l hl
    rcases List.mem_append.mp hl with hl | hl
    · exact wellFormed_changes h s l hl
    · refine ih ?_ l hl
      intro v' hv'
      obtain ⟨v, hv, rfl⟩ := List.mem_map.mp hv'
      rw [Var.next_id]
      exact h v hv

theorem wellFormed_header {scope : String} (hscope : '\n' ∉ scope.toList)
    (h : ∀ v ∈ vars, Solid v.id ∧ Solid v.signal.name.toList) (time : UInt64) :
    ∀ l ∈ Dump.header scope vars time, l.WellFormed := by
  intro l hl
  simp only [Dump.header, List.mem_append, List.mem_map, List.mem_cons, List.not_mem_nil,
    or_false] at hl
  obtain ((((rfl | rfl | rfl) | ⟨v, hv, rfl⟩) | rfl | rfl | rfl | rfl) | ⟨v, hv, rfl⟩) | rfl := hl
  · trivial
  · trivial
  · exact hscope
  · exact h v hv
  · trivial
  · trivial
  · trivial
  · trivial
  · exact Var.wellFormed_record (h v hv).1
  · trivial

theorem wellFormed_text {scope : String} (hscope : '\n' ∉ scope.toList)
    (hsolid : ∀ v ∈ vars, Solid v.id ∧ Solid v.signal.name.toList) (time : UInt64)
    (samples : List Sample) :
    ∀ l ∈ Dump.header scope vars time ++ linesAfter vars samples, l.WellFormed := by
  intro l hl
  rcases List.mem_append.mp hl with hl | hl
  · exact wellFormed_header hscope hsolid time l hl
  · exact wellFormed_linesAfter (fun v hv => (hsolid v hv).1) samples l hl

/-- Read up to a time, the text of a dump shows the table after the samples up to that time. -/
theorem read_written {scope : String} (hscope : '\n' ∉ scope.toList)
    (hsolid : ∀ v ∈ vars, Solid v.id ∧ Solid v.signal.name.toList)
    (hids : (vars.map Var.id).Nodup) {now : Nat} {time : UInt64} (htime : time.toNat ≤ now)
    {past future : List Sample} (hpast : ∀ s ∈ past, s.time.toNat ≤ now)
    (hfuture : ∀ s ∈ future, now < s.time.toNat) :
    ∃ p, Playback.read now (written (Dump.header scope vars time
      ++ linesAfter vars (past ++ future))) = some p ∧ Shows (vars.map (Var.run past)) p := by
  have hlines := wellFormed_text hscope hsolid time (past ++ future)
  -- The reader starts with the header, follows the past, and passes over the future.
  obtain ⟨started, hheader, hstart⟩ := follow_header hids scope htime
  obtain ⟨p, hfollow, hshows⟩ := hstart.follow_past hids hpast
  obtain ⟨stamp, hrest⟩ := follow_future hshows.known hfuture
  refine ⟨{ p with time := stamp }, ?_, hshows.known, hshows.values⟩
  rw [read_lines now hlines, List.map_append, Playback.follow_append, hheader, Option.bind_some,
    linesAfter_append, List.map_append, Playback.follow_append, hfollow, Option.bind_some, hrest]

end Text

theorem lastValue?_of_mem {samples : List Sample} {s : Sample} {signal : Signal}
    (hs : s ∈ samples) (hsignal : signal ∈ s.signals) :
    ∃ held, lastValue? samples signal.name = some held := by
  have hfound : (s.signals.find? fun other => other.name == signal.name).isSome :=
    List.find?_isSome.mpr ⟨signal, hsignal, beq_self_eq_true signal.name⟩
  have hvalue : (s.value? signal.name).isSome := by
    rw [Sample.value?, Option.isSome_map]
    exact hfound
  exact Option.isSome_iff_exists.mp
    (List.findSome?_isSome_iff.mpr ⟨s, List.mem_reverse.mpr hs, hvalue⟩)

theorem mem_take_le {samples : List Sample} (h : samples.Pairwise (·.time < ·.time)) {k : Nat}
    (hk : k < samples.length) {s : Sample} (hs : s ∈ samples.take (k + 1)) :
    s.time ≤ samples[k].time := by
  obtain ⟨j, hj, rfl⟩ := List.mem_take_iff_getElem.mp hs
  rcases Nat.lt_or_ge j k with hlt | hge
  · exact UInt64.le_of_lt (List.pairwise_iff_getElem.mp h j k (by omega) hk hlt)
  · have hjk : j = k := by omega
    subst hjk
    exact UInt64.le_refl _

theorem lt_of_mem_drop {samples : List Sample} (h : samples.Pairwise (·.time < ·.time)) {k : Nat}
    (hk : k < samples.length) {s : Sample} (hs : s ∈ samples.drop (k + 1)) :
    samples[k].time < s.time := by
  obtain ⟨j, hj, rfl⟩ := List.mem_drop_iff_getElem.mp hs
  exact List.pairwise_iff_getElem.mp h k (k + 1 + j) hk (by omega) (by omega)

theorem solid_of_mem_declare {signals : List Signal}
    (hnames : ∀ signal ∈ signals, Solid signal.name.toList) {v : Var}
    (hv : v ∈ declare 0 signals) : Solid v.id ∧ Solid v.signal.name.toList :=
  ⟨solid_declare hv, hnames v.signal (signal_mem_of_mem_declare hv)⟩

theorem Shows.widths_names {samples : List Sample} {signals : List Signal} {p : Playback}
    (h : Shows ((declare 0 signals).map (Var.run samples)) p) :
    (p.known.map fun v => (v.width, v.name)) =
      signals.map fun signal => (signal.width.toNat, signal.name.toList) := by
  have hrun (v : Var) : ((v.run samples).declared.width, (v.run samples).declared.name) =
      (v.signal.width.toNat, v.signal.name.toList) := by
    rw [Var.run_eq]
    rfl
  calc
    _ = (declare 0 signals).map fun v => (v.signal.width.toNat, v.signal.name.toList) := by
      rw [h.known, List.map_map, List.map_map]
      exact List.map_congr_left fun v _ => hrun v
    _ = ((declare 0 signals).map Var.signal).map
        fun signal => (signal.width.toNat, signal.name.toList) := by
      rw [List.map_map]
      rfl
    _ = _ := by rw [declare_signals]

theorem Shows.value {samples : List Sample} {signals : List Signal} {p : Playback}
    (h : Shows ((declare 0 signals).map (Var.run samples)) p) {i : Nat} (hi : i < signals.length)
    {held : UInt64} (hheld : lastValue? samples signals[i].name = some held) :
    ∃ shown, p.value? i = some shown ∧
      shown % 2 ^ signals[i].width.toNat = held.toNat % 2 ^ signals[i].width.toNat := by
  have hlength := declare_length 0 signals
  obtain ⟨v, hv⟩ : ∃ v, (declare 0 signals)[i]? = some v :=
    ⟨_, List.getElem?_eq_getElem (by omega)⟩
  have hsignal : v.signal = signals[i] := by
    have hget : ((declare 0 signals).map Var.signal)[i]? = some v.signal := by
      rw [List.getElem?_map, hv, Option.map_some]
    rw [declare_signals, List.getElem?_eq_getElem hi] at hget
    exact (Option.some.inj hget).symm
  refine ⟨(v.run samples).shown, ?_, ?_⟩
  · rw [Playback.value?, h.known, List.getElem?_map, List.getElem?_map, hv, Option.map_some,
      Option.map_some, Option.bind_some]
    exact h.values _ (List.mem_map_of_mem (List.mem_of_getElem? hv))
  · have hmod := (v.run samples).shown_mod
    rw [Var.run_eq, hsignal, hheld] at hmod
    rw [Var.run_eq, hsignal, hheld]
    exact hmod

namespace Dump

/-- From the text of a dump a reader gets, up to the time of any sample and for every signal of the
first one, the value that its name last had, in the bits of the declared width. There are no other
variables, and no record belongs to anything else. -/
theorem sampleAll_replays {scope : String} (hscope : '\n' ∉ scope.toList) {sink : Sink}
    (hsink : sink.pieces = #[]) {first : Sample} {later : List Sample}
    (hnames : ∀ signal ∈ first.signals, Solid signal.name.toList)
    (htimes : (first :: later).Pairwise (·.time < ·.time)) :
    (sink.room = none → ({ scope, sink } : Dump).sampleAll (first :: later) ≠ none) ∧
    ∀ d, ({ scope, sink } : Dump).sampleAll (first :: later) = some d →
      ∀ k (hk : k < (first :: later).length),
        ∃ p, Playback.read (first :: later)[k].time.toNat d.sink.text = some p ∧
          (p.known.map fun v => (v.width, v.name)) =
            (first.signals.map fun signal => (signal.width.toNat, signal.name.toList)) ∧
          (∀ code, p.values code ≠ none → ∃ v ∈ p.known, v.code = code) ∧
          ∀ i (hi : i < first.signals.length), ∃ shown held,
            p.value? i = some shown ∧
            lastValue? ((first :: later).take (k + 1)) first.signals[i].name = some held ∧
            shown % 2 ^ first.signals[i].width.toNat =
              held.toNat % 2 ^ first.signals[i].width.toNat := by
  refine ⟨?_, ?_⟩
  · intro hroom
    exact Option.isSome_iff_ne_none.mp (sampleAll_unlimited hroom _)
  · intro d hd k hk
    have hfirst : first ∈ (first :: later).take (k + 1) := by
      rw [List.take_succ_cons]
      exact List.mem_cons_self
    have htext : d.sink.text = written (header scope (declare 0 first.signals) first.time
        ++ linesAfter (declare 0 first.signals)
          ((first :: later).take (k + 1) ++ (first :: later).drop (k + 1))) := by
      rw [sampleAll_fresh rfl rfl hd, List.take_append_drop, Sink.text, hsink]
      rfl
    obtain ⟨p, hread, hshows⟩ := read_written hscope
      (fun v hv => solid_of_mem_declare hnames hv) (declare_nodup first.signals)
      (UInt64.le_iff_toNat_le.mp (mem_take_le htimes hk hfirst))
      (fun s hs => UInt64.le_iff_toNat_le.mp (mem_take_le htimes hk hs))
      (fun s hs => UInt64.lt_iff_toNat_lt.mp (lt_of_mem_drop htimes hk hs))
    rw [← htext] at hread
    refine ⟨p, hread, hshows.widths_names, Playback.grounded_read hread, ?_⟩
    intro i hi
    obtain ⟨held, hheld⟩ := lastValue?_of_mem hfirst (List.getElem_mem hi)
    obtain ⟨shown, hshown, hmod⟩ := hshows.value hi hheld
    exact ⟨shown, held, hshown, hheld, hmod⟩

theorem sampleAll_replays_repeated_name :
    ∃ d p shown, ({ scope := "top" } : Dump).sampleAll
        [⟨0, [⟨"a", 8, 5⟩, ⟨"a", 8, 9⟩, ⟨"b", 1, 3⟩]⟩, ⟨5, [⟨"new", 8, 1⟩, ⟨"b", 1, 0⟩]⟩,
          ⟨10, [⟨"a", 8, 300⟩]⟩] = some d ∧
      Playback.read 5 d.sink.text = some p ∧ p.value? 1 = some shown ∧ shown % 2 ^ 8 = 5 := by
  obtain ⟨hwritten, hreplays⟩ := @sampleAll_replays "top" (by decide) {} rfl
    ⟨0, [⟨"a", 8, 5⟩, ⟨"a", 8, 9⟩, ⟨"b", 1, 3⟩]⟩
    [⟨5, [⟨"new", 8, 1⟩, ⟨"b", 1, 0⟩]⟩, ⟨10, [⟨"a", 8, 300⟩]⟩] (by simp [Solid]) (by decide)
  obtain ⟨d, hd⟩ := Option.ne_none_iff_exists'.mp (hwritten rfl)
  obtain ⟨p, hread, _, _, hvalues⟩ := hreplays d hd 1 (by decide)
  obtain ⟨shown, held, hshown, hheld, hmod⟩ := hvalues 1 (by decide)
  have hlast : held = 5 := (Option.some.inj hheld).symm
  rw [hlast] at hmod
  exact ⟨d, p, shown, hd, hread, hshown, hmod⟩

end Dump
end HexBench.Wave
