import HexBench.Proofs.Plusarg.Given
import HexBench.Proofs.Text.Numeral
import HexBench.Settings

set_option autoImplicit false

namespace HexBench.Settings

open Plusarg (Names)
open Plusargs (Entries LastGives plusargs)

structure Asked where
  logFile : Option String := none
  logLevel : Option String := none
  wavePath : Option String := none
  maxTime : Option UInt64 := none
  trace : Bool := false
  verifyChecksum : Bool := false
  extendedRecords : Bool := false

def names : List String :=
  ["log-file", "log-level", "wave-path", "max-time", "trace", "hex-verify-checksum",
    "hex-extended-records"]

namespace Asked

def flag (asked : Bool) : Option (Option String) := if asked then some none else none

/-- What to give for each name, where times are written by `numeral`. -/
def entries (numeral : UInt64 → String) (q : Asked) : Entries :=
  [("log-file", q.logFile.map some), ("log-level", q.logLevel.map some),
    ("wave-path", q.wavePath.map some), ("max-time", q.maxTime.map fun n => some (numeral n)),
    ("trace", flag q.trace), ("hex-verify-checksum", flag q.verifyChecksum),
    ("hex-extended-records", flag q.extendedRecords)]

/-- The arguments that spell what is asked for, each `+name` or `+name=value`. -/
def arguments (numeral : UInt64 → String) (q : Asked) : List String :=
  (plusargs (q.entries numeral)).map Plusarg.text

def OneLine (q : Asked) : Prop :=
  ∀ text, text ∈ q.logFile ∨ text ∈ q.logLevel ∨ text ∈ q.wavePath → '\n' ∉ text.toList

theorem isSome_flag (asked : Bool) : (flag asked).isSome = asked := by
  cases asked <;> rfl

theorem flag_ne (asked : Bool) (value : String) : flag asked ≠ some (some value) := by
  cases asked <;> nofun

variable {numeral : UInt64 → String} {q : Asked}

theorem names_nodup (numeral : UInt64 → String) (q : Asked) :
    ((q.entries numeral).map Prod.fst).Nodup := by
  change names.Nodup
  decide +kernel

theorem lineFeed_notMem_entries (hnumeral : ∀ n, Numeral.Decimal (numeral n) n.toNat)
    (hline : q.OneLine) {name value : String} (h : (name, some (some value)) ∈ q.entries numeral) :
    '\n' ∉ value.toList := by
  simp only [entries, List.mem_cons, Prod.mk.injEq, List.not_mem_nil, or_false,
    (flag_ne _ _).symm, and_false, eq_comm (a := some (some value)), Option.map_eq_some_iff,
    Option.some.injEq] at h
  rcases h with ⟨-, _, hfile, rfl⟩ | ⟨-, _, hlevel, rfl⟩ | ⟨-, _, hpath, rfl⟩ | ⟨-, n, -, rfl⟩
  · exact hline _ (.inl hfile)
  · exact hline _ (.inr (.inl hlevel))
  · exact hline _ (.inr (.inr hpath))
  · exact (hnumeral n).lineFeed_notMem

theorem wellFormed_plusargs (hnumeral : ∀ n, Numeral.Decimal (numeral n) n.toNat)
    (hline : q.OneLine) : ∀ p ∈ plusargs (q.entries numeral), p.WellFormed := by
  have hplain : ∀ name ∈ names, name ≠ "" ∧ '=' ∉ name.toList := by decide +kernel
  intro p hp
  have hname := hplain p.name (Plusargs.name_mem_of_mem_plusargs hp)
  refine ⟨hname.1, hname.2, fun value hvalue => ?_⟩
  obtain ⟨⟨name, given⟩, he, hp⟩ := List.mem_filterMap.mp hp
  obtain ⟨_, rfl, rfl⟩ := Option.map_eq_some_iff.mp hp
  obtain rfl := Option.mem_def.mp hvalue
  exact lineFeed_notMem_entries hnumeral hline he

section Among

variable {arguments others : List String} (hnumeral : ∀ n, Numeral.Decimal (numeral n) n.toNat)
  (hline : q.OneLine) (hothers : ∀ other ∈ others, ∀ name ∈ names, ¬Names name other)
  (hperm : arguments.Perm (q.arguments numeral ++ others))
include hnumeral hline hothers hperm

theorem value?_arguments {name : String} {given : Option (Option String)}
    (he : (name, given) ∈ q.entries numeral) :
    Plusargs.value? ⟨arguments⟩ name = given.join :=
  Plusargs.value?_given (names_nodup numeral q) (wellFormed_plusargs hnumeral hline) hothers
    hperm he

theorem has_arguments {name : String} {asked : Bool}
    (he : (name, flag asked) ∈ q.entries numeral) : Plusargs.has ⟨arguments⟩ name = asked := by
  have hhas := Plusargs.has_given (names_nodup numeral q) (wellFormed_plusargs hnumeral hline)
    hothers hperm he
  rw [hhas, isSome_flag]

end Among

end Asked

theorem ofPlusargs_eq_error_iff {a : Plusargs} {e : BadValue Numeral.Fault} :
    ofPlusargs a = .error e ↔ e.name = "max-time" ∧ a.value? "max-time" = some e.value ∧
      Numeral.readUnsigned 64 e.value = .error e.reason := by
  obtain ⟨name, value, reason⟩ := e
  rw [ofPlusargs, Plusargs.read?]
  cases a.value? "max-time" with
  | none => exact iff_of_false nofun nofun
  | some given =>
    dsimp only
    cases hread : Numeral.readUnsigned 64 given with
    | ok n =>
      refine iff_of_false nofun ?_
      rintro ⟨_, hgiven, hfault⟩
      obtain rfl := Option.some.inj hgiven
      rw [hread] at hfault
      cases hfault
    | error fault =>
      constructor
      · intro herror
        cases herror
        exact ⟨rfl, rfl, hread⟩
      · rintro ⟨rfl, hgiven, hfault⟩
        obtain rfl := Option.some.inj hgiven
        rw [hread] at hfault
        cases hfault
        rfl

theorem read?_maxTime {numeral : UInt64 → String}
    (hnumeral : ∀ n, Numeral.Decimal (numeral n) n.toNat) {a : Plusargs} {maxTime : Option UInt64}
    (h : a.value? "max-time" = maxTime.map numeral) :
    a.read? "max-time" (Numeral.readUnsigned 64) = .ok (maxTime.map UInt64.toNat) := by
  rw [Plusargs.read?, h]
  cases maxTime with
  | none => rfl
  | some n =>
    have hread : Numeral.readUnsigned 64 (numeral n) = .ok n.toNat :=
      Numeral.readUnsigned_eq_ok_iff.mpr ⟨hnumeral n, n.toNat_lt⟩
    simp only [Option.map_some, hread]

theorem ofPlusargs_error_iff (arguments : List String) :
    (∃ e, ofPlusargs ⟨arguments⟩ = .error e) ↔
      ∃ value, LastGives arguments "max-time" (some value) ∧
        ¬∃ n, Numeral.Decimal value n ∧ n < 2 ^ 64 := by
  constructor
  · rintro ⟨e, herror⟩
    obtain ⟨_, hvalue, hread⟩ := ofPlusargs_eq_error_iff.mp herror
    refine ⟨e.value, Plusargs.value?_eq_some_iff.mp hvalue, ?_⟩
    rintro ⟨n, hn⟩
    rw [Numeral.readUnsigned_eq_ok_iff.mpr hn] at hread
    cases hread
  · rintro ⟨value, hlast, hnone⟩
    cases hread : Numeral.readUnsigned 64 value with
    | ok n => exact absurd ⟨n, Numeral.readUnsigned_eq_ok_iff.mp hread⟩ hnone
    | error reason =>
      exact ⟨⟨"max-time", value, reason⟩,
        ofPlusargs_eq_error_iff.mpr ⟨rfl, Plusargs.value?_eq_some_iff.mpr hlast, hread⟩⟩

/-- Settings are what the arguments ask for, in whatever order these stand and among whatever
others: the log level is `info` if none is asked for, and the waves go to the path asked for, or
else to `waveform.vcd` if the flag for waves is set. There are no settings if and only if the value
of the last time limit is no numeral of 64 bits. -/
theorem settings_as_asked (numeral : UInt64 → String)
    (hnumeral : ∀ n, Numeral.Decimal (numeral n) n.toNat) :
    (∀ (q : Asked) (arguments others : List String), q.OneLine →
      (∀ other ∈ others, ∀ name ∈ names, ¬Names name other) →
      arguments.Perm (q.arguments numeral ++ others) →
      ofPlusargs ⟨arguments⟩ = .ok {
        logFile := q.logFile
        logLevel := q.logLevel.getD "info"
        wavePath := q.wavePath.or (if q.trace then some "waveform.vcd" else none)
        maxTime := q.maxTime
        loading := ⟨q.verifyChecksum, q.extendedRecords⟩
        arguments }) ∧
    ∀ arguments, (∃ e, ofPlusargs ⟨arguments⟩ = .error e) ↔
      ∃ value, LastGives arguments "max-time" (some value) ∧
        ¬∃ n, Numeral.Decimal value n ∧ n < 2 ^ 64 := by
  refine ⟨?_, ofPlusargs_error_iff⟩
  intro q arguments others hline hothers hperm
  have hvalue (name : String) (asked : Option String)
      (he : (name, asked.map some) ∈ q.entries numeral) :
      Plusargs.value? ⟨arguments⟩ name = asked := by
    rw [Asked.value?_arguments hnumeral hline hothers hperm he]
    cases asked <;> rfl
  have hflag (name : String) (asked : Bool) (he : (name, Asked.flag asked) ∈ q.entries numeral) :
      Plusargs.has ⟨arguments⟩ name = asked :=
    Asked.has_arguments hnumeral hline hothers hperm he
  have hmax := hvalue "max-time" (q.maxTime.map numeral)
    (by simp [Asked.entries, Option.map_map, Function.comp_def])
  have hpath : wavePathOf ⟨arguments⟩ =
      q.wavePath.or (if q.trace then some defaultWavePath else none) := by
    rw [wavePathOf, hvalue "wave-path" q.wavePath (by simp [Asked.entries]),
      hflag "trace" q.trace (by simp [Asked.entries])]
    cases q.wavePath <;> rfl
  have htime : (q.maxTime.map UInt64.toNat).map Nat.toUInt64 = q.maxTime := by
    cases q.maxTime with
    | none => rfl
    | some n => exact congrArg some UInt64.ofNat_toNat
  rw [ofPlusargs, read?_maxTime hnumeral hmax]
  simp only [htime, hpath, hvalue "log-file" q.logFile (by simp [Asked.entries]),
    hvalue "log-level" q.logLevel (by simp [Asked.entries]),
    hflag "hex-verify-checksum" q.verifyChecksum (by simp [Asked.entries]),
    hflag "hex-extended-records" q.extendedRecords (by simp [Asked.entries])]
  rfl

/-- The largest time limit is asked for, and one more would be too much. -/
theorem settings_as_asked_largest_limit :
    let q : Asked := {
      logLevel := some "", wavePath := some "out/a=b.vcd", maxTime := some 18446744073709551615
      trace := true, extendedRecords := true }
    let arguments := ["+max-time=18446744073709551615", "-v", "+trace", "+hex-extended-records",
      "+Trace=x", "+wave-path=out/a=b.vcd", "+log-level="]
    let others := ["-v", "+Trace=x"]
    q.OneLine ∧ (∀ other ∈ others, ∀ name ∈ names, ¬Names name other) ∧
      arguments.Perm (q.arguments (fun n => toString n.toNat) ++ others) ∧
      ofPlusargs ⟨arguments⟩ = .ok {
        logFile := none, logLevel := "", wavePath := some "out/a=b.vcd"
        maxTime := some 18446744073709551615, loading := ⟨false, true⟩, arguments } ∧
      ∃ e, ofPlusargs ⟨arguments ++ ["+max-time=18446744073709551616"]⟩ = .error e := by
  intro q arguments others
  obtain ⟨hasked, hfails⟩ := settings_as_asked (fun n => toString n.toNat)
    fun n => Numeral.decimal_toString n.toNat
  have hline : q.OneLine := by
    rintro text (hfile | hlevel | hpath)
    · cases hfile
    · obtain rfl := Option.some.inj hlevel
      decide
    · obtain rfl := Option.some.inj hpath
      decide +kernel
  have hothers : ∀ other ∈ others, ∀ name ∈ names, ¬Names name other := by decide +kernel
  have hperm : arguments.Perm (q.arguments (fun n => toString n.toNat) ++ others) := by
    decide +kernel
  refine ⟨hline, hothers, hperm, hasked q arguments others hline hothers hperm, ?_⟩
  have hlast : LastGives (arguments ++ ["+max-time=18446744073709551616"]) "max-time"
      (some "18446744073709551616") := ⟨arguments, _, [], rfl, by decide +kernel, nofun⟩
  refine (hfails _).mpr ⟨_, hlast, ?_⟩
  rintro ⟨n, hn⟩
  have hread := Numeral.readUnsigned_eq_ok_iff.mpr hn
  have hfault : Numeral.readUnsigned 64 "18446744073709551616" = .error .tooLarge := by
    decide +kernel
  rw [hfault] at hread
  cases hread

end HexBench.Settings
