import HexBench.Design.Top
import HexBench.Proofs.Bench.ClockWave
import HexBench.Proofs.Recording

set_option autoImplicit false

/-!
# The program

The wave file that a run of the program leaves is whole, whatever its buffer held back meanwhile and
wherever the log went. Nothing is written but the log file, the wave file, and what the top leaves.
-/

namespace HexBench

open Bench (Action textOf)
open Wave (Dump)

namespace Session

theorem prepare_eq (s : Session) (settings : Settings) : ∃ stderr, s.prepare settings =
    { s with
      files := s.files.emptied (s.opens settings)
      stderr
      logger := s.logger.or (s.loggerFor settings)
      loading := s.loading.or (some settings.loading) } := by
  simp only [prepare, configure_eq, setUpLogger_eq]
  split
  · exact ⟨_, rfl⟩
  · exact ⟨_, rfl⟩

theorem logPlace_prepare {s : Session} {settings : Settings} {here : Location}
    (h : (s.prepare settings).logPlace = some here) :
    s.logPlace = some here ∨ s.opens settings = some here := by
  obtain ⟨stderr, hprepare⟩ := s.prepare_eq settings
  rw [hprepare] at h
  cases hlogger : s.logger with
  | some l =>
    refine .inl ?_
    simpa only [Session.logPlace, hlogger, Option.some_or] using h
  | none =>
    simp only [Session.logPlace, hlogger, Option.none_or] at h
    obtain ⟨l, hl, hplace⟩ := Option.bind_eq_some_iff.mp h
    exact .inr ((place_loggerFor hl).symm.trans hplace)

variable {places : List Location}

theorem prepare_gains {s : Session} {settings : Settings}
    (hopens : ∀ here, s.opens settings = some here → here ∈ places) :
    s.files.Gains places (s.prepare settings).files := by
  obtain ⟨stderr, hprepare⟩ := s.prepare_eq settings
  rw [hprepare]
  change s.files.Gains places (s.files.emptied (s.opens settings))
  cases hplace : s.opens settings with
  | none => exact .refl places s.files
  | some here =>
    obtain ⟨path, hmakes⟩ := opens_makes hplace
    exact (FileTree.Gains.refl places s.files).put hmakes (hopens here hplace) #[]

theorem logAll_gains {s : Session} (hlog : ∀ here, s.logPlace = some here → here ∈ places)
    (es : List LogEntry) : s.files.Gains places (s.logAll es).files :=
  (FileTree.Gains.refl places s.files).agrees (s.agreesOffLog_logAll es).files hlog

theorem leave_gains {s : Session} {path : String}
    (hmakes : ∀ here, s.files.makes path = .ok here → here ∈ places) (content : Bytes) :
    s.files.Gains places (s.leave path content).files := by
  rw [leave, FileTree.create_eq]
  cases hplace : s.files.makes path with
  | error e => exact .refl places s.files
  | ok here =>
    have hput := (FileTree.Gains.refl places s.files).put hplace (hmakes here hplace) #[]
    refine hput.agrees (FileTree.agreesOff_write _ here 0 content) fun other hother => ?_
    exact Option.some.inj hother ▸ hmakes here hplace

theorem leaveAll_gains {s : Session} {files : List (String × Bytes)}
    (hmakes : ∀ file ∈ files, ∀ here, s.files.makes file.1 = .ok here → here ∈ places) :
    s.files.Gains places (s.leaveAll files).files := by
  induction files generalizing s with
  | nil => exact .refl places s.files
  | cons file files ih =>
    have hfirst := leave_gains (hmakes file List.mem_cons_self) file.2
    refine hfirst.trans (ih fun file' hfile' here hhere => ?_)
    exact hmakes file' (List.mem_cons_of_mem file hfile') here (hfirst.toExtends.makes_iff.mp hhere)

theorem content?_leaveAll {s : Session} {files : List (String × Bytes)} {here : Location}
    (hother : ∀ file ∈ files, s.files.makes file.1 ≠ .ok here) :
    (s.leaveAll files).files.content? here = s.files.content? here := by
  let places := files.filterMap fun file => (s.files.makes file.1).toOption
  have hgains : s.files.Gains places (s.leaveAll files).files :=
    leaveAll_gains fun file hfile there hmakes =>
      List.mem_filterMap.mpr ⟨file, hfile, by rw [hmakes]; rfl⟩
  refine hgains.content here fun hmem => ?_
  obtain ⟨file, hfile, hplace⟩ := List.mem_filterMap.mp hmem
  refine hother file hfile ?_
  cases hmakes : s.files.makes file.1 with
  | error e => simp [hmakes, Except.toOption] at hplace
  | ok there => simpa [hmakes, Except.toOption] using hplace

end Session

namespace Recording

variable {places : List Location}

theorem start_gains {s : Session} {wavePath : Option String}
    (hlog : ∀ here, s.logPlace = some here → here ∈ places)
    (hwave : ∀ path, wavePath = some path → ∀ here, s.files.makes path = .ok here → here ∈ places) :
    s.files.Gains places (start s wavePath).session.files ∧
      (start s wavePath).session.logPlace = s.logPlace ∧
      ∀ here, (start s wavePath).place = some here → here ∈ places := by
  cases wavePath with
  | none => exact ⟨.refl places s.files, rfl, by rintro here ⟨⟩⟩
  | some path =>
    cases hcreate : Wave.File.create s.files path with
    | error e =>
      simp only [start, hcreate]
      have hlogged := s.agreesOffLog_log
        ⟨.error, Session.programOrigin, e.message ++ ", running without waves"⟩
      refine ⟨(FileTree.Gains.refl places s.files).agrees hlogged.files hlog, hlogged.logPlace, ?_⟩
      rintro here ⟨⟩
    | ok made =>
      obtain ⟨file, files⟩ := made
      obtain ⟨hmakes, rfl, _, _⟩ := Wave.File.holds_create hcreate
      have hplace := hwave path rfl file.handle.location hmakes
      have hlogged := Session.agreesOffLog_log
        { s with files := s.files.put file.handle.location #[] } (Wave.Event.opened path).entry
      simp only [start, hcreate]
      have hput := (FileTree.Gains.refl places s.files).put hmakes hplace #[]
      refine ⟨hput.agrees hlogged.files hlog, hlogged.logPlace, fun here hhere => ?_⟩
      exact Option.some.inj hhere ▸ hplace

theorem carryOut_gains {r : Recording}
    (hlog : ∀ here, r.session.logPlace = some here → here ∈ places)
    (hplace : ∀ here, r.place = some here → here ∈ places) (actions : List Action) :
    r.session.files.Gains places (r.carryOut actions).session.files :=
  (Session.logAll_gains hlog _).agrees (r.carryOut_sameOff actions).files hplace

end Recording

namespace Session

variable {σ : Type} {s : Session} {shim : Shim σ} {settings : Settings}

def vetted (s : Session) (shim : Shim σ) (settings : Settings) : Session :=
  (s.prepare settings).logAll (shim.vet settings.arguments).1

def recording (s : Session) (shim : Shim σ) (settings : Settings) : Recording :=
  .start (s.vetted shim settings) settings.wavePath

theorem logPlace_vetted {here : Location} (h : (s.vetted shim settings).logPlace = some here) :
    s.logPlace = some here ∨ s.opens settings = some here :=
  logPlace_prepare ((agreesOffLog_logAll _ _).logPlace.symm.trans h)

theorem vetted_gains {places : List Location}
    (hplaces : ∀ here, s.logPlace = some here ∨ s.opens settings = some here → here ∈ places) :
    s.files.Gains places (s.vetted shim settings).files :=
  (prepare_gains fun here hhere => hplaces here (.inr hhere)).trans
    (logAll_gains (fun here hhere => hplaces here (logPlace_prepare hhere)) _)

theorem recording_gains {places : List Location}
    (hlog : ∀ here, s.logPlace = some here ∨ s.opens settings = some here → here ∈ places)
    (hwave : ∀ path, settings.wavePath = some path → ∀ here, s.files.makes path = .ok here →
      here ∈ places) (actions : List Action) :
    s.files.Gains places ((s.recording shim settings).carryOut actions).session.files := by
  have hvetted : s.files.Gains places (s.vetted shim settings).files := vetted_gains hlog
  have hlog' (here : Location) (hhere : (s.vetted shim settings).logPlace = some here) :=
    hlog here (logPlace_vetted hhere)
  obtain ⟨hstart, hkept, hplace⟩ := Recording.start_gains hlog' fun path hpath here hmakes =>
    hwave path hpath here (hvetted.toExtends.makes_iff.mp hmakes)
  exact (hvetted.trans hstart).trans (Recording.carryOut_gains
    (fun here hhere => hlog' here (hkept.symm.trans hhere)) hplace actions)

theorem runProgram_eq [Design σ] (hsettings : s.settings = .ok settings)
    (hvet : (shim.vet settings.arguments).2 = none) :
    s.runProgram shim = ((s.recording shim settings).run shim settings).map id some := by
  simp only [runProgram, hsettings, hvet]
  rfl

def placesOf (s : Session) (shim : Shim σ) : List Location :=
  s.logPlace.toList ++ (s.paths shim).filterMap fun path => (s.files.makes path).toOption

theorem mem_placesOf {path : String} (hpath : path ∈ s.paths shim) {here : Location}
    (hmakes : s.files.makes path = .ok here) : here ∈ s.placesOf shim := by
  refine List.mem_append_right _ (List.mem_filterMap.mpr ⟨path, hpath, ?_⟩)
  rw [hmakes]
  rfl

theorem mem_paths_of_settings (hsettings : s.settings = .ok settings) {path : String}
    (h : settings.logFile = some path ∨ settings.wavePath = some path) : path ∈ s.paths shim := by
  simp only [paths, hsettings, List.mem_append, Option.mem_toList]
  exact .inr h

/-- The program writes no file but those that its paths make, and the log that was there before. -/
theorem runProgram_gains [Design σ]
    (hshim : ∀ top : σ, ∀ file ∈ shim.leaves top, file.1 ∈ shim.paths s.arguments) :
    s.files.Gains (s.placesOf shim) (s.runProgram shim).1.files := by
  cases hsettings : s.settings with
  | error e =>
    simp only [runProgram, hsettings]
    exact .refl _ s.files
  | ok settings =>
    have hlog : ∀ here, s.logPlace = some here ∨ s.opens settings = some here →
        here ∈ s.placesOf shim := by
      rintro here (hbefore | hopened)
      · exact List.mem_append_left _ (Option.mem_toList.mpr hbefore)
      · rw [opens, Option.ite_none_right_eq_some] at hopened
        obtain ⟨path, hfile, hmakes⟩ := Settings.logPlace_eq_some_iff.mp hopened.2
        exact mem_placesOf (mem_paths_of_settings hsettings (.inl hfile)) hmakes
    cases hvet : (shim.vet settings.arguments).2 with
    | some e =>
      have hvetted : s.files.Gains (s.placesOf shim) (s.vetted shim settings).files :=
        vetted_gains hlog
      simp only [runProgram, hsettings, hvet]
      exact hvetted.trans (logAll_gains (fun here hhere => hlog here (logPlace_vetted hhere)) [_])
    | none =>
      rw [runProgram_eq hsettings hvet]
      let b := (s.recording shim settings).bench shim settings
      have hcarried : s.files.Gains (s.placesOf shim)
          ((s.recording shim settings).carryOut b.journal.toList).session.files :=
        recording_gains hlog
          (fun path hpath _ => mem_placesOf (mem_paths_of_settings hsettings (.inr hpath))) _
      refine hcarried.trans (leaveAll_gains fun file hfile here hhere => ?_)
      exact mem_placesOf (List.mem_append_left _ (hshim _ file hfile))
        (hcarried.toExtends.makes_iff.mp hhere)

/-- The wave file that the settings ask for can be made, and neither the log nor the top writes it.
-/
structure WavesAt (s : Session) (shim : Shim σ) (settings : Settings) (here : Location) : Prop where
  read : s.settings = .ok settings
  vetted : (shim.vet settings.arguments).2 = none
  makes : ∃ path, settings.wavePath = some path ∧ s.files.makes path = .ok here
  log : ¬ (s.logPlace = some here ∨ s.opens settings = some here)
  leaves : ∀ top : σ, ∀ file ∈ shim.leaves top, s.files.makes file.1 ≠ .ok here

variable {here : Location}

theorem WavesAt.records (h : s.WavesAt shim settings here) :
    (s.recording shim settings).Records here [] := by
  obtain ⟨path, hpath, hmakes⟩ := h.makes
  have hgains : s.files.Gains (s.logPlace.toList ++ (s.opens settings).toList)
      (s.vetted shim settings).files :=
    vetted_gains fun there hthere => by simpa using hthere
  rw [recording, hpath]
  exact Recording.start_records (hgains.toExtends.makes hmakes) fun hplace =>
    h.log (logPlace_vetted hplace)

variable [Design σ]

theorem WavesAt.bench (h : s.WavesAt shim settings here) :
    (s.recording shim settings).bench shim settings =
      Bench.simulate ((s.recording shim settings).top shim settings)
        (some { scope := Wave.File.scope }) settings.maxTime := by
  obtain ⟨w, hw, _⟩ := h.records.waves
  rw [Recording.bench, hw]
  rfl

/-- The wave file has the whole text of the trace in the end, however much of it was held back
meanwhile. -/
theorem content?_runProgram (h : s.WavesAt shim settings here) :
    let b := (s.recording shim settings).bench shim settings
    (s.runProgram shim).2 = some b.design ∧
      ∃ content, (s.runProgram shim).1.files.content? here = some content ∧
        content.toList = b.journal.text := by
  intro b
  obtain ⟨path, hpath, hmakes⟩ := h.makes
  obtain ⟨before, after, hclose, hafter⟩ :=
    Bench.simulate_closes ((s.recording shim settings).top shim settings)
      (d := { scope := Wave.File.scope }) rfl rfl settings.maxTime
  rw [← h.bench] at hclose
  obtain ⟨content, hcontent, htext⟩ := h.records.all hclose hafter
  have hcarried : s.files.Gains (here :: s.logPlace.toList ++ (s.opens settings).toList)
      ((s.recording shim settings).carryOut b.journal.toList).session.files := by
    refine recording_gains (fun there hthere => ?_) (fun path' hpath' there hthere => ?_) _
    · simpa using .inr hthere
    · obtain rfl := Option.some.inj (hpath.symm.trans hpath')
      obtain rfl := Except.ok.inj (hmakes.symm.trans hthere)
      exact List.mem_cons_self
  rw [runProgram_eq h.read h.vetted]
  refine ⟨rfl, content, (content?_leaveAll fun file hfile hhere => ?_).trans hcontent,
    htext.trans b.journal.text_eq.symm⟩
  exact h.leaves _ file hfile (hcarried.toExtends.makes_iff.mp hhere)

/-- If the top leaves its lines to the bench, the wave file of a run that comes to its end is the
wave of a clock. -/
theorem content?_runProgram_clock (h : s.WavesAt shim settings here) {Valid : σ → Prop}
    (hlines : Design.KeepsLines Valid)
    (hvalid : ∀ arguments filling, Valid (shim.make arguments filling)) :
    let top := (s.recording shim settings).top shim settings
    let b := (s.recording shim settings).bench shim settings
    b.phase ≠ .running →
      b.time.toNat = 5 * b.journal.halfPeriods ∧
      ∃ content, (s.runProgram shim).1.files.content? here = some content ∧ content.toList =
        clockText Wave.File.scope (!(Design.clock top).answer) b.journal.halfPeriods := by
  intro top b hended
  have hb : b = Bench.simulate top (some { scope := Wave.File.scope }) settings.maxTime := h.bench
  obtain ⟨_, content, hcontent, htext⟩ := content?_runProgram h
  change content.toList = b.journal.text at htext
  rw [hb] at hended
  have htop : Valid top := hvalid _ _
  obtain ⟨htime, hwave⟩ := Bench.text_simulate_clock hlines htop (d := { scope := Wave.File.scope })
    rfl rfl rfl rfl settings.maxTime hended
  rw [← hb] at htime hwave
  exact ⟨htime, content, hcontent, htext.trans hwave⟩

end Session

namespace Top

theorem load_lines (t : Top) : t.load.1.clock = t.clock ∧ t.load.1.reset = t.reset := by
  rw [load]
  split <;> exact ⟨rfl, rfl⟩

theorem clockEdge_lines (t : Top) : t.clockEdge.clock = t.clock ∧ t.clockEdge.reset = t.reset := by
  simp only [clockEdge]
  split
  · exact ⟨rfl, rfl⟩
  · split <;> exact ⟨rfl, rfl⟩

theorem keepsLines : Design.KeepsLines fun _ : Top => True where
  setClock level hs := ⟨trivial, rfl, hs.reset⟩
  clock hs := hs
  setReset level hs := ⟨trivial, hs.clock, rfl⟩
  reset hs := hs
  evaluate {clk rst t} hs := by
    let counted := { t with evaluations := t.evaluations + 1 }
    obtain ⟨hclock, hreset⟩ := counted.load_lines
    obtain ⟨hclock', hreset'⟩ := counted.load.1.clockEdge_lines
    exact ⟨trivial, (hclock'.trans hclock).trans hs.clock, (hreset'.trans hreset).trans hs.reset⟩
  finished hs := hs
  advance _ hs := ⟨trivial, hs.clock, hs.reset⟩
  signals _ := rfl

/-- What the program writes with this top can be told from its arguments and the places of files. -/
theorem runProgram_gains (s : Session) :
    s.files.Gains (s.placesOf shim) (s.runProgram shim).1.files := by
  refine Session.runProgram_gains fun top file hfile => ?_
  obtain rfl := List.mem_singleton.mp hfile
  exact List.mem_cons_of_mem _ List.mem_cons_self

/-- The limit of fourteen evaluations leaves three half periods behind the reset. The image is not
there, and the words that the memory has from the start are no end of the program. -/
theorem content?_runProgram_three :
    let s : Session := { arguments := ["+trace", "+limit=14", "+fill=1"] }
    ∃ content, (s.runProgram shim).1.files.content? ["waveform.vcd"] = some content ∧
      content.toList = clockText "tb_top" true 3 := by
  intro s
  let settings : Settings :=
    { logFile := none
      logLevel := "info"
      wavePath := some "waveform.vcd"
      maxTime := none
      loading := ⟨false, false⟩
      arguments := s.arguments }
  have hsettings : s.settings = .ok settings := by rfl
  have hwaves : s.WavesAt shim settings ["waveform.vcd"] := by
    refine ⟨hsettings, by decide +kernel, ⟨"waveform.vcd", rfl, by decide +kernel⟩,
      by decide +kernel, fun top file hfile => ?_⟩
    obtain rfl := List.mem_singleton.mp hfile
    change s.files.makes reportPath ≠ _
    decide +kernel
  let b := (s.recording shim settings).bench shim settings
  have hended : b.phase ≠ .running := by decide +kernel
  have hhalf : b.journal.halfPeriods = 3 := by decide +kernel
  obtain ⟨_, content, hcontent, htext⟩ :=
    Session.content?_runProgram_clock hwaves keepsLines (fun _ _ => trivial) hended
  exact ⟨content, hcontent, hhalf ▸ htext⟩

end Top
end HexBench
