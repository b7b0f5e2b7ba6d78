import HexBench.Proofs.Session.Requests

set_option autoImplicit false

namespace HexBench

namespace Session

def asksLog (s : Session) : Option Location := s.settings.toOption.bind s.opens

theorem asksLog_of_ok {s : Session} {settings : Settings} (h : s.settings = .ok settings) :
    s.asksLog = s.opens settings := by
  rw [asksLog, h]
  rfl

theorem Onward.asksLog {s s' : Session} (h : s.Onward s') : s'.asksLog = s.asksLog := by
  rw [Session.asksLog, Session.asksLog, h.settings, funext h.opens]

/-- A session that was initialised, and in which a logger is installed. The log file that it asks
for is its log, or was never written. -/
structure Settled (s : Session) : Prop where
  installed : s.logger.isSome
  made : s.LogMade
  loaded : s.settings.toOption.isSome → s.loading.isSome
  unwritten : ∀ here, s.asksLog = some here → s.logPlace ≠ some here →
    s.files.content? here = some #[]

section Settled

variable {s : Session}

theorem Settled.agrees (h : s.Settled) {s' : Session} (hs : s.AgreesOffLog s') : s'.Settled where
  installed := (hs.onward.logger h.installed).1
  made := hs.onward.made h.made
  loaded := by rw [hs.settings, hs.loading]; exact h.loaded
  unwritten here hasks hother := by
    rw [hs.onward.asksLog] at hasks
    rw [hs.logPlace] at hother
    exact (hs.files.content here hother).trans (h.unwritten here hasks hother)

theorem Settled.offered (h : s.Settled) (o : Option Image.Options) : (s.offered o).Settled where
  installed := h.installed
  made := h.made
  loaded hsettings := by rw [Session.offered, Option.isSome_or, h.loaded hsettings, Bool.true_or]
  unwritten := h.unwritten

theorem Settled.setUpLogger (h : s.Settled) (settings : Settings) :
    (s.setUpLogger settings).2.Settled := by
  have honward := s.onward_setUpLogger settings
  obtain ⟨hinstalled, hplace⟩ := honward.logger h.installed
  obtain ⟨hloading, hsettings⟩ := s.setUpLogger_keeps settings
  refine ⟨hinstalled, honward.made h.made, ?_, fun here hasks hother => ?_⟩
  · rw [hloading, hsettings]
    exact h.loaded
  · rw [honward.asksLog] at hasks
    rw [hplace] at hother
    rw [setUpLogger_eq, FileTree.content?_emptied, h.unwritten here hasks hother, ite_self]

theorem Settled.initialise (h : s.Settled) : s.initialise.Settled := by
  cases hsettings : s.settings with
  | error e =>
    simp only [Session.initialise, hsettings]
    exact h.agrees (s.agreesOffLog_complain _)
  | ok settings =>
    rw [initialise_eq hsettings]
    have hinstalling : (s.installing settings).Settled :=
      (h.setUpLogger settings).agrees (agreesOffLog_told _ _)
    exact (hinstalling.offered _).agrees (agreesOffLog_announced _ _)

theorem settled_initialise (hmade : s.LogMade) (hinstalled : s.initialise.logger.isSome) :
    s.initialise.Settled := by
  have honward := s.onward_initialise
  cases hsettings : s.settings with
  | error e =>
    have hasks : s.initialise.asksLog = none := by
      rw [honward.asksLog, asksLog, hsettings]
      rfl
    refine ⟨hinstalled, honward.made hmade, ?_, ?_⟩
    · rw [honward.settings, hsettings]
      nofun
    · rw [hasks]
      nofun
  | ok settings =>
    let offering := (s.installing settings).offered (some settings.loading)
    have hannounced : offering.AgreesOffLog s.initialise := by
      rw [initialise_eq hsettings]
      exact agreesOffLog_announced _ _
    refine Settled.agrees ⟨?_, ?_, fun _ => ?_, fun here hasks _ => ?_⟩ hannounced
    · exact hannounced.isSome_logger.symm.trans hinstalled
    · exact hannounced.symm.onward.made (honward.made hmade)
    · exact Option.isSome_or.trans (Bool.or_true _)
    · have hopens : s.opens settings = some here := by
        rw [← asksLog_of_ok hsettings, ← honward.asksLog, hannounced.onward.asksLog]
        exact hasks
      change (((s.setUpLogger settings).2.told _).files).content? here = _
      rw [files_told, setUpLogger_eq, FileTree.content?_emptied, if_pos hopens]

theorem Settled.initialise_eq_log (h : s.Settled) {settings : Settings}
    (hsettings : s.settings = .ok settings) :
    s.initialise = (({ s with files := s.files.emptied s.asksLog } : Session).told
      (s.setUpLogger settings).1).log alreadyConfigured := by
  have hset : (s.installing settings).loading.isSome := by
    rw [(s.installing_keeps settings).1]
    exact h.loaded (by rw [hsettings]; rfl)
  obtain ⟨o, ho⟩ := Option.isSome_iff_exists.mp hset
  have hoffered : (s.installing settings).offered (some settings.loading) =
      s.installing settings := by
    rw [Session.offered, ho, Option.some_or, ← ho]
  obtain ⟨l, hl⟩ := Option.isSome_iff_exists.mp h.installed
  have hsetUp : (s.setUpLogger settings).2 = { s with files := s.files.emptied s.asksLog } := by
    rw [setUpLogger_eq, asksLog_of_ok hsettings, hl, Option.some_or, ← hl]
  rw [initialise_eq hsettings, hoffered, ho, ← hsetUp]
  rfl

theorem Settled.agreesOff_emptied (h : s.Settled) :
    s.files.AgreesOff s.logPlace (s.files.emptied s.asksLog) := by
  cases hasks : s.asksLog with
  | none => exact .refl _ _
  | some here =>
    by_cases hplace : s.logPlace = some here
    · rw [hplace]
      exact FileTree.agreesOff_put (h.made here hplace) #[]
    · exact FileTree.agreesOff_put_same (h.unwritten here hasks hplace) _

theorem Settled.agrees_initialise (h : s.Settled) : s.AgreesOffLog s.initialise := by
  cases hsettings : s.settings with
  | error e =>
    simp only [Session.initialise, hsettings]
    exact s.agreesOffLog_complain _
  | ok settings =>
    rw [h.initialise_eq_log hsettings]
    have hemptied : s.AgreesOffLog { s with files := s.files.emptied s.asksLog } :=
      ⟨rfl, rfl, rfl, rfl, h.agreesOff_emptied⟩
    exact (hemptied.trans (agreesOffLog_told _ _)).trans (agreesOffLog_log _ _)

theorem Settled.files_initialise (h : s.Settled) (hplace : s.logPlace = none)
    (hasks : s.asksLog = none) : s.initialise.files = s.files := by
  cases hsettings : s.settings with
  | error e =>
    rw [Session.initialise, hsettings]
    rfl
  | ok settings =>
    have htold :=
      agreesOffLog_told { s with files := s.files.emptied none } (s.setUpLogger settings).1
    rw [h.initialise_eq_log hsettings, hasks, files_log_of_none (htold.logPlace.trans hplace),
      files_told]
    rfl

/-- The log file holds nothing but the line that says that the options were set before, if that is
let through, and zeros where its lines were. -/
theorem Settled.content_initialise (h : s.Settled) {l : Logger} {file : FileHandle}
    (hl : s.logger = some l) (hfile : l.target = .file file)
    (hasks : s.asksLog = some file.location) :
    s.initialise.files.content? file.location = some (if l.filter alreadyConfigured
      then FileTree.overwrite #[] file.offset (Bytes.ofString alreadyConfigured.fileLine)
      else #[]) := by
  cases hsettings : s.settings with
  | error e =>
    rw [asksLog, hsettings] at hasks
    cases hasks
  | ok settings =>
    rw [h.initialise_eq_log hsettings, content?_log (by rw [logger_told]; exact hl) hfile,
      files_told, FileTree.content?_emptied, if_pos hasks, Option.map_some]

theorem Settled.content_initialise_of_ne (h : s.Settled) {l : Logger} {file : FileHandle}
    (hl : s.logger = some l) (hfile : l.target = .file file)
    (hasks : s.asksLog ≠ some file.location) :
    s.initialise.files.content? file.location = s.files.content? file.location ∨
      s.initialise.files.content? file.location =
        (s.files.content? file.location).map fun content =>
          FileTree.overwrite content file.offset (Bytes.ofString alreadyConfigured.fileLine) := by
  cases hsettings : s.settings with
  | error e =>
    rw [Session.initialise, hsettings]
    exact .inl rfl
  | ok settings =>
    rw [h.initialise_eq_log hsettings, content?_log (by rw [logger_told]; exact hl) hfile,
      files_told, FileTree.content?_emptied, if_neg hasks]
    cases l.filter alreadyConfigured with
    | true => exact .inr rfl
    | false => exact .inl Option.map_id'

/-- The logger, if there is one, logs where the arguments ask for it. -/
def LogAsAsked (s : Session) : Prop := s.logger.isSome → s.asksLog = s.logPlace

theorem LogAsAsked.agrees (h : s.LogAsAsked) {s' : Session} (hs : s.AgreesOffLog s') :
    s'.LogAsAsked := by
  intro hinstalled
  rw [hs.onward.asksLog, hs.logPlace]
  exact h (hs.isSome_logger.symm.trans hinstalled)

theorem LogAsAsked.setUpLogger (h : s.LogAsAsked) {settings : Settings}
    (hsettings : s.settings = .ok settings) : (s.setUpLogger settings).2.LogAsAsked := by
  intro hinstalled
  have honward := s.onward_setUpLogger settings
  rw [honward.asksLog]
  cases hlogger : s.logger with
  | some l =>
    have hbefore : s.logger.isSome := by rw [hlogger]; rfl
    rw [(honward.logger hbefore).2]
    exact h hbefore
  | none =>
    simp only [setUpLogger_eq, hlogger, Option.none_or] at hinstalled
    obtain ⟨l, hl⟩ := Option.isSome_iff_exists.mp hinstalled
    simp only [setUpLogger_eq, logPlace, hlogger, Option.none_or, hl, Option.bind_some]
    rw [place_loggerFor hl, asksLog_of_ok hsettings]

theorem LogAsAsked.initialise (h : s.LogAsAsked) : s.initialise.LogAsAsked := by
  cases hsettings : s.settings with
  | error e =>
    simp only [Session.initialise, hsettings]
    exact h.agrees (s.agreesOffLog_complain _)
  | ok settings =>
    rw [initialise_eq hsettings]
    have hinstalling : (s.installing settings).LogAsAsked :=
      (h.setUpLogger hsettings).agrees (agreesOffLog_told _ _)
    have hoffered : ((s.installing settings).offered (some settings.loading)).LogAsAsked :=
      hinstalling
    exact hoffered.agrees (agreesOffLog_announced _ _)

end Settled

end Session

namespace Host

theorem settled_perform {h : Host} (hsettled : h.session.Settled) (r : Request) :
    (h.perform r).2.session.Settled := by
  cases r with
  | configure o =>
    rw [perform, Session.configure_eq]
    exact hsettled.offered _
  | initialise => exact hsettled.initialise
  | setUpLogger settings => exact hsettled.setUpLogger settings
  | fill path o words => exact hsettled.agrees (Session.agreesOffLog_logAll _ _)
  | readmemh name hasMemory words => exact hsettled.agrees (Session.agreesOffLog_logAll _ _)

theorem settled_performed {h : Host} (hsettled : h.session.Settled) (rs : List Request) :
    (h.performed rs).session.Settled := by
  induction rs generalizing h with
  | nil => exact hsettled
  | cons r rs ih => exact ih (settled_perform hsettled r)

theorem logAsAsked_perform {h : Host} (hasked : h.session.LogAsAsked) {r : Request}
    (hown : ∀ settings, r = .setUpLogger settings → h.session.settings = .ok settings) :
    (h.perform r).2.session.LogAsAsked := by
  cases r with
  | configure o =>
    rw [perform, Session.configure_eq]
    exact hasked
  | initialise => exact hasked.initialise
  | setUpLogger settings => exact hasked.setUpLogger (hown settings rfl)
  | fill path o words => exact hasked.agrees (Session.agreesOffLog_logAll _ _)
  | readmemh name hasMemory words => exact hasked.agrees (Session.agreesOffLog_logAll _ _)

theorem logAsAsked_performed {h : Host} (hasked : h.session.LogAsAsked) (rs : List Request)
    (hown : ∀ settings, .setUpLogger settings ∈ rs → h.session.settings = .ok settings) :
    (h.performed rs).session.LogAsAsked := by
  induction rs generalizing h with
  | nil => exact hasked
  | cons r rs ih =>
    refine ih (logAsAsked_perform hasked fun settings hr => hown settings (hr ▸ List.mem_cons_self))
      fun settings hr => ?_
    rw [(onward_perform h r).settings]
    exact hown settings (List.mem_cons_of_mem r hr)

/-- Once more initialised, a session fills all memories as before, and changes no file but its log.
A log file that the arguments ask for loses all its lines; where loggers were set up with the
settings of the arguments only, that is the log. -/
theorem initialise_again (arguments : List String) (filter : Option LogFilter)
    (files : FileTree) (memory : Memory) (before between after : List Request) :
    let start : Host := ⟨{ arguments, filter, files }, memory⟩
    let first := start.performed (before ++ [.initialise])
    let host := first.performed between
    let again := (host.perform .initialise).2
    first.session.logger.isSome → (∀ r ∈ after, host.SparesLog r) →
      again.memory = host.memory ∧ again.memoriesAfter after = host.memoriesAfter after ∧
      (host.session.logPlace = none → host.session.asksLog = none →
        again.session.files = host.session.files) ∧
      (∀ here, host.session.logPlace ≠ some here →
        again.session.files.content? here = host.session.files.content? here) ∧
      (∀ l file, host.session.logger = some l → l.target = .file file →
        (host.session.asksLog = some file.location →
          again.session.files.content? file.location =
            some (if l.filter Session.alreadyConfigured
              then FileTree.overwrite #[] file.offset
                (Bytes.ofString Session.alreadyConfigured.fileLine)
              else #[])) ∧
        (host.session.asksLog ≠ some file.location →
          again.session.files.content? file.location =
              host.session.files.content? file.location ∨
            again.session.files.content? file.location =
              (host.session.files.content? file.location).map fun content =>
                FileTree.overwrite content file.offset
                  (Bytes.ofString Session.alreadyConfigured.fileLine))) ∧
      ((∀ settings, .setUpLogger settings ∈ before → start.session.settings = .ok settings) →
        host.session.asksLog = host.session.logPlace) := by
  intro start first host again hinstalled hspares
  have hfirst : first = ((start.performed before).perform .initialise).2 := by
    simp only [first, performed, List.foldl_append, List.foldl_cons, List.foldl_nil]
  have hbefore : (start.performed before).session.LogMade :=
    (onward_performed start before).made nofun
  have hsettled : first.session.Settled := by
    rw [hfirst] at hinstalled ⊢
    exact Session.settled_initialise hbefore hinstalled
  have hhost : host.session.Settled := settled_performed hsettled between
  have hagain : host.session.AgreesOffLog again.session := hhost.agrees_initialise
  refine ⟨rfl, memoriesAfter_agrees hhost.installed hhost.made hagain rfl after hspares,
    hhost.files_initialise, hagain.files.content, fun l file hl hfile =>
      ⟨hhost.content_initialise hl hfile, hhost.content_initialise_of_ne hl hfile⟩, fun hown => ?_⟩
  have hasked : first.session.LogAsAsked := by
    rw [hfirst]
    exact (logAsAsked_performed (h := start) nofun before hown).initialise
  have honward := onward_performed first between
  rw [honward.asksLog, (honward.logger hinstalled).2]
  exact hasked hinstalled

/-- An image of one word at address 0, in a file of its own. -/
def oneImage : FileTree :=
  { files := [(["a"], (Bytes.ofString ":0400000078563412E8\n").toArray)] }

theorem sparesLog_oneImage {h : Host} (hleads : (h.session.files.leadsTo "a").toOption = some ["a"])
    (hplace : h.session.logPlace = some ["log"]) : h.SparesLog (.fill "a" {} none) :=
  sparesLog_of_leadsTo rfl hleads (by rw [hplace]; decide)

theorem initialise_again_debug :
    let start : Host :=
      ⟨{ arguments := ["+log-file=log", "+log-level=debug"], files := oneImage }, #[0, 7]⟩
    let first := start.performed ([] ++ [.initialise])
    let host := first.performed [.configure ⟨true, true⟩]
    let again := (host.perform .initialise).2
    first.session.logger.isSome ∧ host.SparesLog (.fill "a" {} none) ∧
    again.memoriesAfter [.fill "a" {} none] = host.memoriesAfter [.fill "a" {} none] ∧
    host.memoriesAfter [.fill "a" {} none] = [#[0x12345678, 7]] := by
  intro start first host again
  have hinstalled : first.session.logger.isSome := by decide +kernel
  have hspares : host.SparesLog (.fill "a" {} none) :=
    sparesLog_oneImage (by decide +kernel) (by decide +kernel)
  obtain ⟨_, hmemories, _⟩ := initialise_again _ none oneImage #[0, 7] []
    [.configure ⟨true, true⟩] [.fill "a" {} none] hinstalled fun r hr => by
      rw [List.mem_singleton.mp hr]
      exact hspares
  exact ⟨hinstalled, hspares, hmemories, by decide +kernel⟩

/-- The line that reports the image is lost from the log file, though the image is no log file. -/
theorem initialise_again_loses_log :
    let start : Host := ⟨{ arguments := ["+log-file=log"], files := oneImage }, #[0]⟩
    let first := start.performed [.initialise]
    let host := first.performed [.fill "a" {} none]
    let again := (host.perform .initialise).2
    first.session.logger.isSome ∧ first.SparesLog (.fill "a" {} none) ∧
    host.session.files.content? ["log"] =
      some (Bytes.ofString " INFO Loaded HEX file: a\n").toArray ∧
    ¬ ∀ old new, host.session.files.content? ["log"] = some old →
      again.session.files.content? ["log"] = some new → ∀ i < old.size, new[i]? = old[i]? := by
  intro start first host again
  let old := (Bytes.ofString " INFO Loaded HEX file: a\n").toArray
  have hold : host.session.files.content? ["log"] = some old := by decide +kernel
  have hnew : again.session.files.content? ["log"] = some #[] := by decide +kernel
  refine ⟨by decide +kernel, sparesLog_oneImage (by decide +kernel) (by decide +kernel), hold,
    fun hkept => ?_⟩
  have hfirst := hkept old #[] hold hnew 0 (by decide +kernel)
  revert hfirst
  decide +kernel

end Host
end HexBench
