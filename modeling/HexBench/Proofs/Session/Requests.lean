import HexBench.Proofs.Session.Log

set_option autoImplicit false

namespace HexBench

/-- What the request would set the options for loading to. To initialise a session sets them if the
arguments can be read, whatever becomes of the logger. -/
def Request.policy? (settings : Except (BadValue Numeral.Fault) Settings) :
    Request → Option Image.Options
  | .configure o => some o
  | .initialise => settings.toOption.map Settings.loading
  | _ => none

namespace Session

theorem setUpLogger_keeps (s : Session) (settings : Settings) :
    (s.setUpLogger settings).2.loading = s.loading ∧
      (s.setUpLogger settings).2.settings = s.settings := by
  rw [setUpLogger_eq]
  exact ⟨rfl, rfl⟩

theorem installing_keeps (s : Session) (settings : Settings) :
    (s.installing settings).loading = s.loading ∧
      (s.installing settings).settings = s.settings := by
  obtain ⟨hloading, hsettings⟩ := s.setUpLogger_keeps settings
  have htold := agreesOffLog_told (s.setUpLogger settings).2 (s.setUpLogger settings).1
  exact ⟨htold.loading.trans hloading, htold.settings.trans hsettings⟩

theorem initialise_keeps (s : Session) :
    s.initialise.loading = s.loading.or (Request.initialise.policy? s.settings) ∧
      s.initialise.settings = s.settings := by
  cases hsettings : s.settings with
  | error e =>
    rw [initialise, hsettings]
    exact ⟨Option.or_none.symm, hsettings⟩
  | ok settings =>
    obtain ⟨hloading, hkept⟩ := s.installing_keeps settings
    have hannounced := agreesOffLog_announced
      ((s.installing settings).offered (some settings.loading))
      (s.installing settings).loading.isNone
    rw [initialise_eq hsettings]
    refine ⟨hannounced.loading.trans ?_, (hannounced.settings.trans hkept).trans hsettings⟩
    rw [offered, hloading]
    rfl

theorem AgreesOffLog.sources {s s' : Session} (h : s.AgreesOffLog s') {path : String}
    (hother : ∀ here, s.files.leadsTo path = .ok here → s.logPlace ≠ some here) :
    s'.sources path = s.sources path :=
  congrArg (Except.map Image.Source.ofNode) (h.files.openRead hother)

end Session

theorem fill_congr {sources sources' : Image.Sources} {path : String}
    (h : sources' path = sources path) (o : Image.Options) (memory : Memory) :
    fill sources' o path memory = fill sources o path memory := by
  simp only [fill, Image.loadFile, h]

def Request.image? : Request → Option String
  | .fill path _ _ => some path
  | .readmemh (some bytes) true _ => some (Fill.nameOf bytes)
  | _ => none

namespace Host

def SparesLog (h : Host) (r : Request) : Prop :=
  ∀ path, r.image? = some path →
    ∀ here, h.session.files.leadsTo path = .ok here → h.session.logPlace ≠ some here

theorem sparesLog_of_leadsTo {h : Host} {r : Request} {path : String} {here : Location}
    (hpath : r.image? = some path)
    (hleads : (h.session.files.leadsTo path).toOption = some here)
    (hother : h.session.logPlace ≠ some here) : h.SparesLog r := by
  intro path' hpath' here' hleads'
  obtain rfl := Option.some.inj (hpath.symm.trans hpath')
  rw [hleads'] at hleads
  exact Option.some.inj hleads ▸ hother

def performed (h : Host) (rs : List Request) : Host := rs.foldl (fun h r => (h.perform r).2) h

theorem perform_keeps (h : Host) (r : Request) :
    (h.perform r).2.session.loading =
        h.session.loading.or (r.policy? h.session.settings) ∧
      (h.perform r).2.session.settings = h.session.settings := by
  cases r with
  | configure o =>
    rw [perform, Session.configure_eq]
    exact ⟨rfl, rfl⟩
  | initialise => exact h.session.initialise_keeps
  | setUpLogger settings =>
    obtain ⟨hloading, hsettings⟩ := h.session.setUpLogger_keeps settings
    exact ⟨hloading.trans Option.or_none.symm, hsettings⟩
  | fill path o words =>
    have hlogged := Session.agreesOffLog_logAll h.session
      (h.memory.fillFirst (words.getD h.memory.size)
        (HexBench.fill h.session.sources o path)).entries
    exact ⟨hlogged.loading.trans Option.or_none.symm, hlogged.settings⟩
  | readmemh name hasMemory words =>
    have hlogged := Session.agreesOffLog_logAll h.session
      (h.memory.fillFirst (words.getD h.memory.size)
        (HexBench.readmemh h.session.sourcesAfter h.session.loadingOptions name hasMemory)).entries
    exact ⟨hlogged.loading.trans Option.or_none.symm, hlogged.settings⟩

theorem performed_keeps (h : Host) (rs : List Request) :
    (h.performed rs).session.loading =
        h.session.loading.or (rs.findSome? (Request.policy? h.session.settings)) ∧
      (h.performed rs).session.settings = h.session.settings := by
  induction rs generalizing h with
  | nil => exact ⟨Option.or_none.symm, rfl⟩
  | cons r rs ih =>
    obtain ⟨hloading, hsettings⟩ := perform_keeps h r
    obtain ⟨hrest, hkept⟩ := ih (h.perform r).2
    refine ⟨hrest.trans ?_, hkept.trans hsettings⟩
    rw [hloading, hsettings, Option.or_assoc, List.findSome?_cons]
    cases r.policy? h.session.settings <;> rfl

theorem onward_perform (h : Host) (r : Request) : h.session.Onward (h.perform r).2.session := by
  cases r with
  | configure o =>
    rw [perform, Session.configure_eq]
    exact Session.onward_offered _ _
  | initialise => exact h.session.onward_initialise
  | setUpLogger settings => exact h.session.onward_setUpLogger settings
  | fill path o words => exact (Session.agreesOffLog_logAll _ _).onward
  | readmemh name hasMemory words => exact (Session.agreesOffLog_logAll _ _).onward

theorem onward_performed (h : Host) (rs : List Request) :
    h.session.Onward (h.performed rs).session := by
  induction rs generalizing h with
  | nil => exact (Session.AgreesOffLog.refl _).onward
  | cons r rs ih => exact (onward_perform h r).trans (ih (h.perform r).2)

theorem readmemh_memory {h : Host} {bytes : Bytes} {words : Option Nat}
    (hspares : h.SparesLog (.readmemh (some bytes) true words)) :
    (h.perform (.readmemh (some bytes) true words)).2.memory =
      (h.perform (.fill (Fill.nameOf bytes) h.session.loadingOptions words)).2.memory := by
  have hread (memory : Memory) :
      (readmemh h.session.sourcesAfter h.session.loadingOptions (some bytes) true memory).memory =
        (HexBench.fill h.session.sources h.session.loadingOptions (Fill.nameOf bytes) memory).memory
      := by
    let request := (Fill.Event.requested (Fill.nameOf bytes) memory.size).entry
    have hsources : (h.session.log request).sources (Fill.nameOf bytes) = _ :=
      (h.session.agreesOffLog_log request).sources (hspares _ rfl)
    simp only [readmemh, if_true, Session.sourcesAfter]
    rw [fill_congr hsources]
  simp only [perform, fillFirst, Memory.fillFirst, hread]

theorem readmemh_null {h : Host} {name : Option Bytes} {hasMemory : Bool} {words : Option Nat}
    (hnull : name = none ∨ hasMemory = false) :
    h.perform (.readmemh name hasMemory words) =
      (.done, ⟨h.session.log Fill.Event.nullPointer.entry, h.memory⟩) := by
  have hread : readmemh h.session.sourcesAfter h.session.loadingOptions name hasMemory =
      fun memory => ⟨memory, [.nullPointer]⟩ := by
    funext memory
    obtain rfl | rfl := hnull
    · rfl
    · cases name <;> rfl
  have hkept (n : Nat) : h.memory.extract 0 n ++ h.memory.extract n h.memory.size = h.memory := by
    rw [Array.extract_append_extract, Nat.zero_min,
      Array.extract_eq_self_of_le (Nat.le_max_right n h.memory.size)]
  simp only [perform, hread, fillFirst, Memory.fillFirst, hkept]
  rfl

section Alike

variable {h h' : Host}

theorem agrees_perform (hs : h.session.AgreesOffLog h'.session) (r : Request) :
    (h.perform r).2.session.AgreesOffLog (h'.perform r).2.session := by
  cases r with
  | configure o =>
    simp only [perform, Session.configure_eq]
    exact hs.offered _
  | initialise => exact hs.initialise
  | setUpLogger settings => exact (hs.setUpLogger settings).2
  | fill path o words => exact hs.logAll _ _
  | readmemh name hasMemory words => exact hs.logAll _ _

theorem agrees_performed (hs : h.session.AgreesOffLog h'.session) (rs : List Request) :
    (h.performed rs).session.AgreesOffLog (h'.performed rs).session := by
  induction rs generalizing h h' with
  | nil => exact hs
  | cons r rs ih => exact ih (agrees_perform hs r)

theorem answer_agrees (hs : h.session.AgreesOffLog h'.session) (r : Request) :
    (h'.perform r).1 = (h.perform r).1 := by
  cases r with
  | configure o => simp only [perform, Session.configure_eq, hs.loading]
  | setUpLogger settings => simp only [perform, (hs.setUpLogger settings).1]
  | _ => rfl

theorem SparesLog.agrees {h h' : Host} {r : Request} (hspares : h.SparesLog r)
    (hs : h.session.AgreesOffLog h'.session) : h'.SparesLog r := by
  intro path hpath here hleads
  rw [hs.logPlace]
  exact hspares path hpath here ((hs.files.leadsTo path).symm.trans hleads)

theorem fill_memory (hs : h.session.AgreesOffLog h'.session) (hmemory : h'.memory = h.memory)
    {path : String} (o : Image.Options) (words : Option Nat)
    (hspares : h.SparesLog (.fill path o words)) :
    (h'.perform (.fill path o words)).2.memory = (h.perform (.fill path o words)).2.memory := by
  have hfill := fill_congr (hs.sources (hspares path rfl)) o
  simp only [perform, fillFirst, hmemory, funext hfill]

theorem perform_memory (hs : h.session.AgreesOffLog h'.session) (hmemory : h'.memory = h.memory)
    {r : Request} (hspares : h.SparesLog r) :
    (h'.perform r).2.memory = (h.perform r).2.memory := by
  cases r with
  | configure o => exact hmemory
  | initialise => exact hmemory
  | setUpLogger settings => exact hmemory
  | fill path o words => exact fill_memory hs hmemory o words hspares
  | readmemh name hasMemory words =>
    by_cases hnull : name = none ∨ hasMemory = false
    · rw [readmemh_null hnull, readmemh_null hnull]
      exact hmemory
    · obtain ⟨bytes, rfl⟩ := Option.ne_none_iff_exists'.mp (not_or.mp hnull).1
      obtain rfl : hasMemory = true := Bool.of_not_eq_false (not_or.mp hnull).2
      have hoptions : h'.session.loadingOptions = h.session.loadingOptions := by
        rw [Session.loadingOptions, Session.loadingOptions, hs.loading]
      rw [readmemh_memory hspares, readmemh_memory (hspares.agrees hs), hoptions]
      exact fill_memory hs hmemory _ words hspares

/-- A path that leads to the log file has led there before. -/
theorem SparesLog.onward {h h' : Host} (hinstalled : h.session.logger.isSome)
    (hmade : h.session.LogMade) {r : Request} (hspares : h.SparesLog r)
    (honward : h.session.Onward h'.session) : h'.SparesLog r := by
  intro path hpath here hleads hplace
  rw [(honward.logger hinstalled).2] at hplace
  have hnode : (h.session.files.node? here).isSome := by
    rw [FileTree.node?]
    split
    · rfl
    · rw [Option.isSome_map]
      exact hmade here hplace
  exact hspares path hpath here (honward.files.leadsTo_of_node? (fun _ => hnode) hleads) hplace

def memoriesAfter (h : Host) (rs : List Request) : List Memory :=
  (h.performAll rs).map fun answered => answered.2.memory

def resultsAfter (h : Host) (rs : List Request) : List (Answer × Memory) :=
  (h.performAll rs).map fun answered => (answered.1, answered.2.memory)

theorem resultsAfter_agrees (hinstalled : h.session.logger.isSome) (hmade : h.session.LogMade)
    (hs : h.session.AgreesOffLog h'.session) (hmemory : h'.memory = h.memory) (rs : List Request)
    (hspares : ∀ r ∈ rs, h.SparesLog r) : h'.resultsAfter rs = h.resultsAfter rs := by
  induction rs generalizing h h' with
  | nil => rfl
  | cons r rs ih =>
    have hfilled := perform_memory hs hmemory (hspares r List.mem_cons_self)
    have honward := onward_perform h r
    have hagrees := agrees_perform hs r
    have hrest := ih (honward.logger hinstalled).1 (honward.made hmade) hagrees hfilled
      fun r' hr' => (hspares r' (List.mem_cons_of_mem r hr')).onward hinstalled hmade honward
    change ((h'.perform r).1, (h'.perform r).2.memory) :: (h'.perform r).2.resultsAfter rs =
      ((h.perform r).1, (h.perform r).2.memory) :: (h.perform r).2.resultsAfter rs
    rw [answer_agrees hs, hfilled, hrest]

theorem memoriesAfter_agrees (hinstalled : h.session.logger.isSome) (hmade : h.session.LogMade)
    (hs : h.session.AgreesOffLog h'.session) (hmemory : h'.memory = h.memory) (rs : List Request)
    (hspares : ∀ r ∈ rs, h.SparesLog r) : h'.memoriesAfter rs = h.memoriesAfter rs := by
  have hresults := resultsAfter_agrees hinstalled hmade hs hmemory rs hspares
  have hmemories (h : Host) : h.memoriesAfter rs = (h.resultsAfter rs).map Prod.snd := by
    rw [memoriesAfter, resultsAfter, List.map_map]
    rfl
  rw [hmemories, hmemories, hresults]

end Alike

end Host
end HexBench
