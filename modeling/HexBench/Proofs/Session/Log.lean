import HexBench.Proofs.FileTree
import HexBench.Proofs.Log
import HexBench.Session

set_option autoImplicit false

namespace HexBench

def Settings.logPlace (settings : Settings) (files : FileTree) : Option Location :=
  settings.logFile.bind fun path => (files.makes path).toOption

theorem Settings.logPlace_eq_some_iff {settings : Settings} {files : FileTree} {here : Location} :
    settings.logPlace files = some here ↔
      ∃ path, settings.logFile = some path ∧ files.makes path = .ok here := by
  rw [logPlace, Option.bind_eq_some_iff]
  apply exists_congr
  intro path
  cases files.makes path <;> simp [Except.toOption]

def Logger.place (l : Logger) : Option Location :=
  match l.target with
  | .terminal => none
  | .file h => some h.location

def FileTree.emptied (files : FileTree) : Option Location → FileTree
  | none => files
  | some here => files.put here #[]

theorem FileTree.content?_emptied (files : FileTree) (opened : Option Location) (here : Location) :
    (files.emptied opened).content? here =
      if opened = some here then some #[] else files.content? here := by
  cases opened with
  | none => rfl
  | some place =>
    by_cases hplace : place = here
    · rw [if_pos (congrArg some hplace), emptied, hplace, content?_put]
    · rw [if_neg fun heq => hplace (Option.some.inj heq), emptied,
        content?_put_of_ne files (Ne.symm hplace)]

theorem FileTree.AgreesOff.emptied {files files' : FileTree} {place opened : Option Location}
    (h : files.AgreesOff place files')
    (hmakes : ∀ {here}, opened = some here → ∃ path, files.makes path = .ok here) :
    (files.emptied opened).AgreesOff place (files'.emptied opened) := by
  cases opened with
  | none => exact h
  | some here =>
    obtain ⟨_, hhere⟩ := hmakes rfl
    exact h.put hhere #[]

namespace Session

def logPlace (s : Session) : Option Location := s.logger.bind Logger.place

def opens (s : Session) (settings : Settings) : Option Location :=
  if (Level.read? settings.logLevel).isSome then settings.logPlace s.files else none

def targetFor (s : Session) (settings : Settings) : Except LoggerError LogTarget :=
  match settings.logFile with
  | none => .ok .terminal
  | some path =>
    match s.files.makes path with
    | .error e => .error (.cannotCreate path e)
    | .ok location => .ok (.file { location })

def loggerFor (s : Session) (settings : Settings) : Option Logger :=
  match Level.read? settings.logLevel, s.targetFor settings with
  | some level, .ok target => some ⟨s.filter.getD level.filter, target⟩
  | _, _ => none

theorem opens_makes {s : Session} {settings : Settings} {here : Location}
    (h : s.opens settings = some here) : ∃ path, s.files.makes path = .ok here := by
  rw [opens, Option.ite_none_right_eq_some] at h
  obtain ⟨path, _, hmakes⟩ := Settings.logPlace_eq_some_iff.mp h.2
  exact ⟨path, hmakes⟩

theorem openLog_eq (s : Session) (settings : Settings) : s.openLog settings.logFile =
    (s.targetFor settings).map fun target =>
      (target, s.files.emptied (settings.logPlace s.files)) := by
  rw [targetFor, Settings.logPlace]
  cases settings.logFile with
  | none => rfl
  | some path =>
    simp only [openLog, FileTree.create_eq]
    cases hmakes : s.files.makes path <;>
      simp [hmakes, Except.map, Except.toOption, FileTree.emptied]

theorem logPlace_of_targetFor {s : Session} {settings : Settings} {target : LogTarget}
    (h : s.targetFor settings = .ok target) (filter : LogFilter) :
    settings.logPlace s.files = Logger.place ⟨filter, target⟩ := by
  rw [targetFor] at h
  rw [Settings.logPlace]
  cases hfile : settings.logFile with
  | none =>
    rw [hfile] at h
    cases h
    rfl
  | some path =>
    cases hmakes : s.files.makes path with
    | error e => simp [hfile, hmakes] at h
    | ok here =>
      simp only [hfile, hmakes, Except.ok.injEq] at h
      simp [← h, hmakes, Except.toOption, Logger.place]

theorem logPlace_of_targetFor_error {s : Session} {settings : Settings} {e : LoggerError}
    (h : s.targetFor settings = .error e) : settings.logPlace s.files = none := by
  rw [targetFor] at h
  rw [Settings.logPlace]
  cases hfile : settings.logFile with
  | none => rfl
  | some path =>
    cases hmakes : s.files.makes path with
    | error e => simp [hmakes, Except.toOption]
    | ok here => simp [hfile, hmakes] at h

/-- The file is opened before it is found out that there is a logger. -/
theorem setUpLogger_eq (s : Session) (settings : Settings) : s.setUpLogger settings =
    (match Level.read? settings.logLevel, s.targetFor settings with
      | none, _ => some (.badLevel settings.logLevel)
      | some _, .error e => some e
      | some _, .ok _ => if s.logger.isSome then some .alreadyInstalled else none,
    { s with
      files := s.files.emptied (s.opens settings)
      logger := s.logger.or (s.loggerFor settings) }) := by
  obtain ⟨arguments, filter, files, stdout, stderr, logger, loading⟩ := s
  rw [setUpLogger, openLog_eq, opens, loggerFor]
  cases Level.read? settings.logLevel with
  | none => simp [FileTree.emptied]
  | some level =>
    cases htarget : targetFor _ settings with
    | error e => simp [Except.map, logPlace_of_targetFor_error htarget, FileTree.emptied]
    | ok target => cases logger <;> simp [Except.map]

theorem setUpLogger_of_level {s : Session} (h : s.filter = none) (settings : Settings) :
    let filter := LogFilter.read? settings.logLevel
    { s with filter }.setUpLogger settings =
      ((s.setUpLogger settings).1, { (s.setUpLogger settings).2 with filter }) := by
  intro filter
  have htarget : { s with filter }.targetFor settings = s.targetFor settings := rfl
  have hlogger : { s with filter }.loggerFor settings = s.loggerFor settings := by
    rw [loggerFor, loggerFor, htarget]
    cases hlevel : Level.read? settings.logLevel with
    | none => rfl
    | some level =>
      have hfilter : filter = some level.filter := LogFilter.read?_of_level hlevel
      cases s.targetFor settings <;> simp [hfilter, h]
  rw [setUpLogger_eq, setUpLogger_eq, hlogger]
  rfl

theorem place_loggerFor {s : Session} {settings : Settings} {l : Logger}
    (h : s.loggerFor settings = some l) : l.place = s.opens settings := by
  rw [loggerFor] at h
  cases hlevel : Level.read? settings.logLevel with
  | none => simp [hlevel] at h
  | some level =>
    cases htarget : s.targetFor settings with
    | error e => simp [hlevel, htarget] at h
    | ok target =>
      simp only [hlevel, htarget, Option.some.injEq] at h
      rw [opens, hlevel, logPlace_of_targetFor htarget l.filter, ← h]
      rfl

/-- Sessions that differ in nothing but what was written to the terminal and to the log file. -/
structure AgreesOffLog (s s' : Session) : Prop where
  arguments : s'.arguments = s.arguments
  filter : s'.filter = s.filter
  loading : s'.loading = s.loading
  loggers : (s'.logger.map fun l => (l.filter, l.place)) =
    s.logger.map fun l => (l.filter, l.place)
  files : s.files.AgreesOff s.logPlace s'.files

section AgreesOffLog

variable {s s' : Session}

theorem AgreesOffLog.logPlace (h : s.AgreesOffLog s') : s'.logPlace = s.logPlace := by
  have hbind (o : Option Logger) :
      o.bind Logger.place = (o.map fun l => (l.filter, l.place)).bind Prod.snd := by
    cases o <;> rfl
  rw [Session.logPlace, Session.logPlace, hbind, hbind, h.loggers]

theorem AgreesOffLog.isSome_logger (h : s.AgreesOffLog s') :
    s'.logger.isSome = s.logger.isSome := by
  have hloggers := congrArg Option.isSome h.loggers
  rwa [Option.isSome_map, Option.isSome_map] at hloggers

theorem AgreesOffLog.refl (s : Session) : s.AgreesOffLog s :=
  ⟨rfl, rfl, rfl, rfl, .refl _ _⟩

theorem AgreesOffLog.symm (h : s.AgreesOffLog s') : s'.AgreesOffLog s :=
  ⟨h.arguments.symm, h.filter.symm, h.loading.symm, h.loggers.symm,
    h.logPlace.symm ▸ h.files.symm⟩

theorem AgreesOffLog.trans {u : Session} (h : s.AgreesOffLog s') (h' : s'.AgreesOffLog u) :
    s.AgreesOffLog u :=
  ⟨h'.arguments.trans h.arguments, h'.filter.trans h.filter, h'.loading.trans h.loading,
    h'.loggers.trans h.loggers, h.files.trans (h.logPlace ▸ h'.files)⟩

theorem AgreesOffLog.settings (h : s.AgreesOffLog s') : s'.settings = s.settings := by
  rw [Session.settings, Session.settings, h.arguments]

theorem AgreesOffLog.logPlace_settings (h : s.AgreesOffLog s') (settings : Settings) :
    settings.logPlace s'.files = settings.logPlace s.files := by
  simp only [Settings.logPlace, h.files.makes]

theorem AgreesOffLog.opens (h : s.AgreesOffLog s') (settings : Settings) :
    s'.opens settings = s.opens settings := by
  rw [Session.opens, Session.opens, h.logPlace_settings]

theorem AgreesOffLog.targetFor (h : s.AgreesOffLog s') (settings : Settings) :
    s'.targetFor settings = s.targetFor settings := by
  simp only [Session.targetFor, h.files.makes]

theorem AgreesOffLog.loggerFor (h : s.AgreesOffLog s') (settings : Settings) :
    s'.loggerFor settings = s.loggerFor settings := by
  rw [Session.loggerFor, Session.loggerFor, h.filter, h.targetFor]

theorem AgreesOffLog.setUpLogger (h : s.AgreesOffLog s') (settings : Settings) :
    (s'.setUpLogger settings).1 = (s.setUpLogger settings).1 ∧
      (s.setUpLogger settings).2.AgreesOffLog (s'.setUpLogger settings).2 := by
  have hfiles : (s.files.emptied (s.opens settings)).AgreesOff s.logPlace
      (s'.files.emptied (s.opens settings)) := h.files.emptied opens_makes
  simp only [setUpLogger_eq, h.opens, h.loggerFor, h.targetFor, h.isSome_logger]
  refine ⟨trivial, h.arguments, h.filter, h.loading, ?_, ?_⟩
  · rw [Option.map_or, Option.map_or, h.loggers]
  · cases hlogger : s.logger with
    | some l => simpa only [Session.logPlace, hlogger, Option.some_or] using hfiles
    | none =>
      have hnowhere : s.logPlace = none := by rw [Session.logPlace, hlogger]; rfl
      rw [hnowhere] at hfiles
      exact hfiles.mono _

end AgreesOffLog

theorem agreesOffLog_log (s : Session) (e : LogEntry) : s.AgreesOffLog (s.log e) := by
  cases hlogger : s.logger with
  | none =>
    rw [log, hlogger]
    exact .refl s
  | some l =>
    rw [log, hlogger]
    by_cases hpasses : l.filter e = true
    · cases htarget : l.target with
      | terminal =>
        simp only [if_pos hpasses, htarget]
        exact ⟨rfl, rfl, rfl, by rw [hlogger], .refl _ _⟩
      | file h =>
        simp only [if_pos hpasses, htarget, FileHandle.write]
        have hplace : s.logPlace = some h.location := by
          simp only [logPlace, hlogger, Option.bind_some, Logger.place, htarget]
        refine ⟨rfl, rfl, rfl, ?_, ?_⟩
        · simp only [hlogger, Option.map_some, Logger.place, htarget]
        · rw [hplace]
          exact s.files.agreesOff_write h.location h.offset (Bytes.ofString e.fileLine)
    · simp only [if_neg hpasses]
      exact .refl s

theorem files_log_of_none {s : Session} (h : s.logPlace = none) (e : LogEntry) :
    (s.log e).files = s.files := by
  cases hlogger : s.logger with
  | none => rw [log, hlogger]
  | some l =>
    have hterminal : l.target = .terminal := by
      rw [logPlace, hlogger, Option.bind_some, Logger.place] at h
      split at h
      · assumption
      · cases h
    simp only [log, hlogger, hterminal]
    split <;> rfl

theorem content?_log {s : Session} {l : Logger} {file : FileHandle} (hl : s.logger = some l)
    (hfile : l.target = .file file) (e : LogEntry) : (s.log e).files.content? file.location =
      (s.files.content? file.location).map fun content =>
        if l.filter e then FileTree.overwrite content file.offset (Bytes.ofString e.fileLine)
        else content := by
  simp only [log, hl, hfile]
  split
  · exact FileTree.content?_write s.files file.location file.offset _
  · exact Option.map_id'.symm

theorem agreesOffLog_logAll (s : Session) (es : List LogEntry) : s.AgreesOffLog (s.logAll es) := by
  induction es generalizing s with
  | nil => exact .refl s
  | cons e es ih => exact (s.agreesOffLog_log e).trans (ih (s.log e))

theorem agreesOffLog_complain (s : Session) (message : String) :
    s.AgreesOffLog (s.complain message) := ⟨rfl, rfl, rfl, rfl, .refl _ _⟩

def told (s : Session) : Option LoggerError → Session
  | none => s
  | some e => s.complain ("sim_init: " ++ e.message)

def announced (s : Session) (first : Bool) : Session := if first then s else s.log alreadyConfigured

def offered (s : Session) (o : Option Image.Options) : Session :=
  { s with loading := s.loading.or o }

def installing (s : Session) (settings : Settings) : Session :=
  (s.setUpLogger settings).2.told (s.setUpLogger settings).1

theorem configure_eq (s : Session) (o : Image.Options) :
    s.configure o = (s.loading.isNone, s.offered (some o)) := by
  obtain ⟨arguments, filter, files, stdout, stderr, logger, loading⟩ := s
  cases loading <;> rfl

theorem initialise_eq {s : Session} {settings : Settings} (h : s.settings = .ok settings) :
    s.initialise = ((s.installing settings).offered (some settings.loading)).announced
      (s.installing settings).loading.isNone := by
  have hinitialise : s.initialise =
      ((s.installing settings).configure settings.loading).2.announced
        ((s.installing settings).configure settings.loading).1 := by
    simp only [initialise, h]
    rfl
  rw [hinitialise, configure_eq]

theorem agreesOffLog_told (s : Session) (fault : Option LoggerError) :
    s.AgreesOffLog (s.told fault) := by
  cases fault with
  | none => exact .refl s
  | some e => exact s.agreesOffLog_complain _

theorem files_told (s : Session) (fault : Option LoggerError) : (s.told fault).files = s.files := by
  cases fault <;> rfl

theorem logger_told (s : Session) (fault : Option LoggerError) :
    (s.told fault).logger = s.logger := by
  cases fault <;> rfl

theorem agreesOffLog_announced (s : Session) (first : Bool) :
    s.AgreesOffLog (s.announced first) := by
  cases first with
  | true => exact .refl s
  | false => exact s.agreesOffLog_log _

section Alike

variable {s s' : Session}

theorem AgreesOffLog.logAll (h : s.AgreesOffLog s') (es es' : List LogEntry) :
    (s.logAll es).AgreesOffLog (s'.logAll es') :=
  (s.agreesOffLog_logAll es).symm.trans (h.trans (s'.agreesOffLog_logAll es'))

theorem AgreesOffLog.offered (h : s.AgreesOffLog s') (o : Option Image.Options) :
    (s.offered o).AgreesOffLog (s'.offered o) :=
  ⟨h.arguments, h.filter, congrArg (Option.or · o) h.loading, h.loggers, h.files⟩

theorem AgreesOffLog.installing (h : s.AgreesOffLog s') (settings : Settings) :
    (s.installing settings).AgreesOffLog (s'.installing settings) :=
  (agreesOffLog_told _ _).symm.trans ((h.setUpLogger settings).2.trans (agreesOffLog_told _ _))

theorem AgreesOffLog.initialise (h : s.AgreesOffLog s') :
    s.initialise.AgreesOffLog s'.initialise := by
  cases hsettings : s.settings with
  | error e =>
    simp only [Session.initialise, h.settings, hsettings]
    exact (s.agreesOffLog_complain _).symm.trans (h.trans (s'.agreesOffLog_complain _))
  | ok settings =>
    rw [initialise_eq hsettings, initialise_eq (h.settings.trans hsettings)]
    have hoffered := (h.installing settings).offered (some settings.loading)
    exact (agreesOffLog_announced _ _).symm.trans (hoffered.trans (agreesOffLog_announced _ _))

end Alike

def LogMade (s : Session) : Prop :=
  ∀ here, s.logPlace = some here → (s.files.content? here).isSome

/-- What no request takes back: files stay where they are, and so does the log. -/
structure Onward (s s' : Session) : Prop where
  arguments : s'.arguments = s.arguments
  files : s.files.Extends s'.files
  logger : s.logger.isSome → s'.logger.isSome ∧ s'.logPlace = s.logPlace
  made : s.LogMade → s'.LogMade

section Onward

variable {s s' : Session}

theorem AgreesOffLog.onward (h : s.AgreesOffLog s') : s.Onward s' where
  arguments := h.arguments
  files := h.files.extends
  logger hlogger := ⟨h.isSome_logger.trans hlogger, h.logPlace⟩
  made hmade here hplace := (h.files.present here).trans (hmade here (h.logPlace ▸ hplace))

theorem Onward.trans {u : Session} (h : s.Onward s') (h' : s'.Onward u) : s.Onward u where
  arguments := h'.arguments.trans h.arguments
  files := h.files.trans h'.files
  logger hlogger :=
    have hkept := h.logger hlogger
    ⟨(h'.logger hkept.1).1, (h'.logger hkept.1).2.trans hkept.2⟩
  made hmade := h'.made (h.made hmade)

theorem Onward.settings (h : s.Onward s') : s'.settings = s.settings := by
  rw [Session.settings, Session.settings, h.arguments]

theorem Onward.opens (h : s.Onward s') (settings : Settings) :
    s'.opens settings = s.opens settings := by
  have hplace : settings.logPlace s'.files = settings.logPlace s.files := by
    apply Option.ext
    intro here
    simp only [Settings.logPlace_eq_some_iff, h.files.makes_iff]
  rw [Session.opens, Session.opens, hplace]

theorem onward_offered (s : Session) (o : Option Image.Options) : s.Onward (s.offered o) :=
  ⟨rfl, .refl _, fun hlogger => ⟨hlogger, rfl⟩, id⟩

theorem onward_setUpLogger (s : Session) (settings : Settings) :
    s.Onward (s.setUpLogger settings).2 := by
  rw [setUpLogger_eq]
  have hfiles : s.files.Extends (s.files.emptied (s.opens settings)) := by
    cases hplace : s.opens settings with
    | none => exact .refl _
    | some here =>
      obtain ⟨_, hmakes⟩ := opens_makes hplace
      exact (FileTree.makes_put hmakes #[]).1
  refine ⟨rfl, hfiles, fun hlogger => ?_, fun hmade here hplace => ?_⟩
  · obtain ⟨l, hl⟩ := Option.isSome_iff_exists.mp hlogger
    simp [Session.logPlace, hl]
  · cases hlogger : s.logger with
    | some l =>
      apply hfiles.present here
      apply hmade
      simpa [Session.logPlace, hlogger] using hplace
    | none =>
      simp only [Session.logPlace, hlogger, Option.none_or] at hplace
      obtain ⟨l, hl, hhere⟩ := Option.bind_eq_some_iff.mp hplace
      rw [← place_loggerFor hl, hhere, FileTree.emptied, FileTree.content?_put]
      rfl

theorem onward_initialise (s : Session) : s.Onward s.initialise := by
  cases hsettings : s.settings with
  | error e =>
    simp only [Session.initialise, hsettings]
    exact (s.agreesOffLog_complain _).onward
  | ok settings =>
    rw [initialise_eq hsettings]
    have hinstalling : s.Onward (s.installing settings) :=
      (s.onward_setUpLogger settings).trans (agreesOffLog_told _ _).onward
    exact (hinstalling.trans (onward_offered _ _)).trans (agreesOffLog_announced _ _).onward

end Onward

end Session
end HexBench
