import HexBench.Proofs.Session.Requests
import Mathlib.Data.List.Forall2

set_option autoImplicit false

/-!
# Settings of the log

Where a session logs to, and what it lets through, is no matter to the memory that it fills. The
only file that it makes or writes is the one that its arguments name for the log. As long as no
image is loaded from there, the memory hangs on the files at the start and on the options for
loading, and these are set whatever becomes of the log.
-/

namespace HexBench

theorem Settings.loading_ofPlusargs {a : Plusargs} {settings : Settings}
    (h : ofPlusargs a = .ok settings) :
    settings.loading = ⟨a.has "hex-verify-checksum", a.has "hex-extended-records"⟩ := by
  rw [ofPlusargs] at h
  split at h
  · cases h
  · cases h
    rfl

/-- The request loads no image from the log file, not even once this is made. -/
def Request.SparesLogFile (r : Request) (files : FileTree) (settings : Settings) : Prop :=
  ∀ path ∈ r.image?, ∀ here ∈ settings.logPlace files,
    ((files.put here #[]).leadsTo path).toOption ≠ some here

instance (r : Request) (files : FileTree) (settings : Settings) :
    Decidable (r.SparesLogFile files settings) :=
  inferInstanceAs (Decidable (∀ path ∈ r.image?, ∀ here ∈ settings.logPlace files,
    ((files.put here #[]).leadsTo path).toOption ≠ some here))

def Request.logger? : Request → Option Settings
  | .setUpLogger settings => some settings
  | _ => none

def logPlaces (files : FileTree) (loggers : List Settings) : List Location :=
  loggers.filterMap fun settings => settings.logPlace files

theorem mem_logPlaces {files : FileTree} {loggers : List Settings} {here : Location} :
    here ∈ logPlaces files loggers ↔ ∃ settings ∈ loggers, settings.logPlace files = some here :=
  List.mem_filterMap

/-- What a session that was started with these files keeps to, whatever is asked of it: no files
change but those for the logs of these settings. -/
structure Session.LogsTo (files : FileTree) (loggers : List Settings) (s : Session) : Prop where
  gains : files.Gains (logPlaces files loggers) s.files
  logger : ∀ here, s.logPlace = some here → here ∈ logPlaces files loggers

namespace Session

variable {files : FileTree} {loggers : List Settings} {s : Session}

theorem LogsTo.fresh (hlogger : s.logger = none) (loggers : List Settings) :
    s.LogsTo s.files loggers where
  gains := .refl _ _
  logger here hplace := by
    rw [logPlace, hlogger] at hplace
    cases hplace

theorem LogsTo.agrees (h : s.LogsTo files loggers) {s' : Session} (hs : s.AgreesOffLog s') :
    s'.LogsTo files loggers where
  gains := h.gains.agrees hs.files h.logger
  logger here hplace := h.logger here (hs.logPlace ▸ hplace)

theorem LogsTo.offered (h : s.LogsTo files loggers) (o : Option Image.Options) :
    (s.offered o).LogsTo files loggers := ⟨h.gains, h.logger⟩

theorem LogsTo.opens (h : s.LogsTo files loggers) {settings : Settings} (hmem : settings ∈ loggers)
    {here : Location} (hopens : s.opens settings = some here) : here ∈ logPlaces files loggers := by
  rw [Session.opens, Option.ite_none_right_eq_some] at hopens
  obtain ⟨path, hfile, hmakes⟩ := Settings.logPlace_eq_some_iff.mp hopens.2
  exact mem_logPlaces.mpr ⟨settings, hmem,
    Settings.logPlace_eq_some_iff.mpr ⟨path, hfile, h.gains.makes_iff.mp hmakes⟩⟩

theorem LogsTo.setUpLogger (h : s.LogsTo files loggers) {settings : Settings}
    (hmem : settings ∈ loggers) : (s.setUpLogger settings).2.LogsTo files loggers := by
  rw [setUpLogger_eq]
  refine ⟨?_, fun here hhere => ?_⟩
  · cases hopens : s.opens settings with
    | none => exact h.gains
    | some here =>
      obtain ⟨_, hmakes⟩ := opens_makes hopens
      exact h.gains.put hmakes (h.opens hmem hopens) #[]
  · have hold := h.logger here
    rw [logPlace] at hhere hold
    cases hlogger : s.logger with
    | some l =>
      rw [hlogger] at hhere hold
      exact hold hhere
    | none =>
      rw [hlogger, Option.none_or] at hhere
      obtain ⟨l, hl, hplace⟩ := Option.bind_eq_some_iff.mp hhere
      exact h.opens hmem ((place_loggerFor hl).symm.trans hplace)

theorem LogsTo.initialise (h : s.LogsTo files loggers) {settings : Settings}
    (hasked : s.settings = .ok settings) (hmem : settings ∈ loggers) :
    s.initialise.LogsTo files loggers := by
  rw [initialise_eq hasked]
  have hinstalling : (s.installing settings).LogsTo files loggers :=
    (h.setUpLogger hmem).agrees (agreesOffLog_told _ _)
  exact (hinstalling.offered _).agrees (agreesOffLog_announced _ _)

theorem LogsTo.elsewhere (h : s.LogsTo files loggers) {r : Request}
    (hspares : ∀ settings ∈ loggers, r.SparesLogFile files settings) {path : String}
    (hpath : r.image? = some path) (here : Location) (hleads : s.files.leadsTo path = .ok here) :
    here ∉ logPlaces files loggers := by
  intro hplace
  obtain ⟨settings, hmem, hlog⟩ := mem_logPlaces.mp hplace
  obtain ⟨_, _, hmakes⟩ := Settings.logPlace_eq_some_iff.mp hlog
  have hmade := h.gains.leadsTo_put hmakes #[] hleads
  exact hspares settings hmem path hpath here hlog (by rw [hmade]; rfl)

end Session

theorem Image.Sources.toOption_ofFiles (files : FileTree) (path : String) :
    (ofFiles files path).toOption = (files.openRead path).toOption.map Source.ofNode := by
  rw [ofFiles]
  cases files.openRead path <;> rfl

theorem fill_memory_of_toOption {sources sources' : Image.Sources} {path : String}
    (h : (sources' path).toOption = (sources path).toOption) (o : Image.Options) (memory : Memory) :
    (fill sources' o path memory).memory = (fill sources o path memory).memory := by
  simp only [fill, Image.loadFile]
  cases hsource : sources path with
  | error e =>
    cases hsource' : sources' path with
    | error e' => rfl
    | ok source => rw [hsource, hsource'] at h; cases h
  | ok source =>
    cases hsource' : sources' path with
    | error e' => rw [hsource, hsource'] at h; cases h
    | ok source' =>
      rw [hsource, hsource'] at h
      cases h
      rfl

/-- The memory that a request leaves where images are loaded from these files. -/
def Request.memoryAfter (files : FileTree) (loading : Image.Options) (memory : Memory) :
    Request → Memory
  | .fill path o words =>
    (memory.fillFirst (words.getD memory.size) (HexBench.fill (.ofFiles files) o path)).memory
  | .readmemh (some bytes) true words =>
    (memory.fillFirst (words.getD memory.size)
      (HexBench.fill (.ofFiles files) loading (Fill.nameOf bytes))).memory
  | _ => memory

def Answer.first? : Answer → Option Bool
  | .configured first => some first
  | _ => none

namespace Host

def shown (h : Host) (rs : List Request) : List (Option Bool × Memory) :=
  (h.performAll rs).map fun answered => (answered.1.first?, answered.2.memory)

theorem shown_cons (h : Host) (r : Request) (rs : List Request) :
    h.shown (r :: rs) = ((h.perform r).1.first?, (h.perform r).2.memory) ::
      (h.perform r).2.shown rs := rfl

theorem first?_perform (h : Host) (r : Request) : (h.perform r).1.first? =
    match r with
    | .configure _ => some h.session.loading.isNone
    | _ => none := by
  cases r with
  | configure o =>
    rw [perform, Session.configure_eq]
    rfl
  | setUpLogger settings =>
    simp only [perform]
    cases (h.session.setUpLogger settings).1 <;> rfl
  | _ => rfl

section LogsTo

variable {files : FileTree} {loggers : List Settings} {h : Host}
  (hlogs : h.session.LogsTo files loggers)
include hlogs

theorem logsTo_perform {settings : Settings} (hasked : h.session.settings = .ok settings)
    (hmem : settings ∈ loggers) {r : Request} (hlogger : ∀ asked ∈ r.logger?, asked ∈ loggers) :
    (h.perform r).2.session.LogsTo files loggers := by
  cases r with
  | configure o =>
    rw [perform, Session.configure_eq]
    exact hlogs.offered _
  | initialise => exact hlogs.initialise hasked hmem
  | setUpLogger asked => exact hlogs.setUpLogger (hlogger asked rfl)
  | fill path o words => exact hlogs.agrees (Session.agreesOffLog_logAll _ _)
  | readmemh name hasMemory words => exact hlogs.agrees (Session.agreesOffLog_logAll _ _)

variable {r : Request} (hspares : ∀ settings ∈ loggers, r.SparesLogFile files settings)
include hspares

theorem sparesLog_of_logsTo : h.SparesLog r := fun _ hpath here hleads hplace =>
  hlogs.elsewhere hspares hpath here hleads (hlogs.logger here hplace)

theorem fill_of_logsTo {path : String} (hpath : r.image? = some path) (o : Image.Options)
    (words : Option Nat) : (h.perform (.fill path o words)).2.memory =
      Request.memoryAfter files h.session.loadingOptions h.memory (.fill path o words) := by
  have hopened := hlogs.gains.openRead (hlogs.elsewhere hspares hpath)
  have hsources :
      (h.session.sources path).toOption = (Image.Sources.ofFiles files path).toOption := by
    rw [Session.sources, Image.Sources.toOption_ofFiles, hopened, Image.Sources.toOption_ofFiles]
  have hfill := fill_memory_of_toOption hsources o
  simp only [perform, fillFirst, Memory.fillFirst, Request.memoryAfter, hfill]

theorem memory_perform :
    (h.perform r).2.memory = r.memoryAfter files h.session.loadingOptions h.memory := by
  cases r with
  | configure o => rfl
  | initialise => rfl
  | setUpLogger settings => rfl
  | fill path o words => exact fill_of_logsTo hlogs hspares rfl o words
  | readmemh name hasMemory words =>
    cases name with
    | none =>
      rw [readmemh_null (.inl rfl)]
      rfl
    | some bytes =>
      cases hasMemory with
      | false =>
        rw [readmemh_null (.inr rfl)]
        rfl
      | true =>
        rw [readmemh_memory (sparesLog_of_logsTo hlogs hspares)]
        exact fill_of_logsTo hlogs hspares rfl _ words

end LogsTo

end Host

/-- Requests that are the same but for the settings of a logger. -/
inductive Request.SameButLogger : Request → Request → Prop where
  | refl (r : Request) : SameButLogger r r
  | setUpLogger (settings settings' : Settings) :
    SameButLogger (.setUpLogger settings) (.setUpLogger settings')

theorem Request.SameButLogger.memoryAfter {r r' : Request} (h : r.SameButLogger r')
    (files : FileTree) (loading : Image.Options) (memory : Memory) :
    r'.memoryAfter files loading memory = r.memoryAfter files loading memory := by
  cases h <;> rfl

theorem Request.SameButLogger.policy? {r r' : Request} (h : r.SameButLogger r')
    {settings settings' : Settings} (hloading : settings'.loading = settings.loading) :
    r'.policy? (.ok settings') = r.policy? (.ok settings) := by
  cases h with
  | refl =>
    cases r with
    | initialise => exact congrArg some hloading
    | _ => rfl
  | setUpLogger => rfl

namespace Host

theorem first?_perform_of_same {h h' : Host} (hset : h'.session.loading = h.session.loading)
    {r r' : Request} (hsame : r.SameButLogger r') :
    (h'.perform r').1.first? = (h.perform r).1.first? := by
  rw [first?_perform, first?_perform, hset]
  cases hsame <;> rfl

/-- A host that logs where it is asked to, by its arguments or by requests, and loads no image from
there. -/
structure Loads (files : FileTree) (settings : Settings) (loggers : List Settings) (h : Host)
    (rs : List Request) : Prop where
  asked : h.session.settings = .ok settings
  own : settings ∈ loggers
  logs : h.session.LogsTo files loggers
  requested : ∀ r ∈ rs, ∀ asked ∈ r.logger?, asked ∈ loggers
  spares : ∀ r ∈ rs, ∀ asked ∈ loggers, r.SparesLogFile files asked

theorem Loads.perform {files : FileTree} {settings : Settings} {loggers : List Settings} {h : Host}
    {r : Request} {rs : List Request} (hloads : h.Loads files settings loggers (r :: rs)) :
    (h.perform r).2.Loads files settings loggers rs where
  asked := (perform_keeps h r).2.trans hloads.asked
  own := hloads.own
  logs := logsTo_perform hloads.logs hloads.asked hloads.own (hloads.requested r List.mem_cons_self)
  requested r' hr' := hloads.requested r' (List.mem_cons_of_mem r hr')
  spares r' hr' := hloads.spares r' (List.mem_cons_of_mem r hr')

theorem shown_of_loads {files : FileTree} {settings settings' : Settings}
    {loggers loggers' : List Settings} (hloading : settings'.loading = settings.loading)
    {h h' : Host} (hset : h'.session.loading = h.session.loading) (hmemory : h'.memory = h.memory)
    {rs rs' : List Request} (hsame : List.Forall₂ Request.SameButLogger rs rs')
    (hloads : h.Loads files settings loggers rs) (hloads' : h'.Loads files settings' loggers' rs') :
    h'.shown rs' = h.shown rs := by
  induction hsame generalizing h h' with
  | nil => rfl
  | @cons r r' rs rs' hr hrs ih =>
    have hfilled : (h'.perform r').2.memory = (h.perform r).2.memory := by
      rw [memory_perform hloads'.logs (hloads'.spares r' List.mem_cons_self),
        memory_perform hloads.logs (hloads.spares r List.mem_cons_self), hmemory,
        Session.loadingOptions, Session.loadingOptions, hset, hr.memoryAfter]
    have hkept : (h'.perform r').2.session.loading = (h.perform r).2.session.loading := by
      rw [(perform_keeps h' r').1, (perform_keeps h r).1, hset, hloads'.asked, hloads.asked,
        hr.policy? hloading]
    rw [shown_cons, shown_cons, first?_perform_of_same hset hr, hfilled,
      ih hkept hfilled hloads.perform hloads'.perform]

/-- Processes whose arguments agree on the options for loading show the same memory after every
request, and set the options at the same ones, whatever their arguments, the environment and the
requests ask of the log: the level may be bad, the log file one that cannot be made, and the filter
any at all. -/
theorem shown_of_loading {arguments arguments' : List String} {settings settings' : Settings}
    (hasked : Settings.ofPlusargs ⟨arguments⟩ = .ok settings)
    (hasked' : Settings.ofPlusargs ⟨arguments'⟩ = .ok settings')
    (hchecksum : Plusargs.has ⟨arguments'⟩ "hex-verify-checksum" =
      Plusargs.has ⟨arguments⟩ "hex-verify-checksum")
    (hextended : Plusargs.has ⟨arguments'⟩ "hex-extended-records" =
      Plusargs.has ⟨arguments⟩ "hex-extended-records")
    (filter filter' : Option LogFilter) (files : FileTree) (memory : Memory)
    {rs rs' : List Request} (hsame : List.Forall₂ Request.SameButLogger rs rs')
    (hspares : ∀ r ∈ rs, ∀ logger ∈ settings :: rs.filterMap Request.logger?,
      r.SparesLogFile files logger)
    (hspares' : ∀ r ∈ rs', ∀ logger ∈ settings' :: rs'.filterMap Request.logger?,
      r.SparesLogFile files logger) :
    let host : Host := ⟨{ arguments, filter, files }, memory⟩
    let host' : Host := ⟨{ arguments := arguments', filter := filter', files }, memory⟩
    host'.shown rs' = host.shown rs := by
  intro host host'
  have hloading : settings'.loading = settings.loading := by
    rw [Settings.loading_ofPlusargs hasked', Settings.loading_ofPlusargs hasked, hchecksum,
      hextended]
  have hmem {rs : List Request} (settings : Settings) : ∀ r ∈ rs, ∀ asked ∈ r.logger?,
      asked ∈ settings :: rs.filterMap Request.logger? := fun r hr asked hlogger =>
    List.mem_cons_of_mem _ (List.mem_filterMap.mpr ⟨r, hr, hlogger⟩)
  have hloads : host.Loads files settings (settings :: rs.filterMap Request.logger?) rs :=
    ⟨hasked, List.mem_cons_self, .fresh (s := host.session) rfl _, hmem settings, hspares⟩
  have hloads' : host'.Loads files settings' (settings' :: rs'.filterMap Request.logger?) rs' :=
    ⟨hasked', List.mem_cons_self, .fresh (s := host'.session) rfl _, hmem settings', hspares'⟩
  have hset : host'.session.loading = host.session.loading := rfl
  have hmemory : host'.memory = host.memory := rfl
  exact shown_of_loads hloading hset hmemory hsame hloads hloads'

/-- One process logs to a file. The other can neither read its level nor make its log file, and its
filter goes by where an entry comes from. -/
theorem shown_of_loading_bad_log :
    let files : FileTree :=
      { files := [(["a"], (Bytes.ofString ":020000020001FB\n:0400000078563412E8\n").toArray)] }
    let arguments := ["+log-file=log", "+log-level=debug", "+hex-extended-records"]
    let arguments' :=
      ["+hex-extended-records", "+log-level=loud", "+log-file=b/log", "+max-time=5"]
    let settings : Settings := ⟨some "log", "debug", none, none, ⟨false, true⟩, arguments⟩
    let settings' : Settings := ⟨some "b/log", "loud", none, some 5, ⟨false, true⟩, arguments'⟩
    let fromImage : LogFilter := fun e => e.origin == Image.origin
    let load : Request := .readmemh (some (Bytes.ofString "a")) true none
    let requests (settings : Settings) : List Request :=
      [.initialise, .configure {}, load, .setUpLogger settings, .fill "./a" ⟨true, false⟩ (some 1)]
    let host : Host := ⟨{ arguments, files }, #[1, 2, 3, 4, 5]⟩
    let host' : Host :=
      ⟨{ arguments := arguments', filter := some fromImage, files }, #[1, 2, 3, 4, 5]⟩
    host'.shown (requests settings') = host.shown (requests settings) ∧
      host.shown (requests settings) = [
        (none, #[1, 2, 3, 4, 5]), (some false, #[1, 2, 3, 4, 5]),
        (none, #[1, 2, 3, 4, 0x12345678]), (none, #[1, 2, 3, 4, 0x12345678]),
        (none, #[0x12345678, 2, 3, 4, 0x12345678])] ∧
      (host.performed (requests settings)).session.logPlace = some ["log"] ∧
      (host'.performed (requests settings')).session.logPlace = none := by
  intro files arguments arguments' settings settings' fromImage load requests host host'
  have hasked : Settings.ofPlusargs ⟨arguments⟩ = .ok settings := by rfl
  have hasked' : Settings.ofPlusargs ⟨arguments'⟩ = .ok settings' := by rfl
  have hsame : List.Forall₂ Request.SameButLogger (requests settings) (requests settings') :=
    .cons (.refl _) (.cons (.refl _) (.cons (.refl _) (.cons (.setUpLogger _ _)
      (.cons (.refl _) .nil))))
  have hspares : ∀ r ∈ requests settings,
      ∀ logger ∈ settings :: (requests settings).filterMap Request.logger?,
        r.SparesLogFile files logger := by decide +kernel
  have hspares' : ∀ r ∈ requests settings',
      ∀ logger ∈ settings' :: (requests settings').filterMap Request.logger?,
        r.SparesLogFile files logger := by decide +kernel
  have hshown := shown_of_loading hasked hasked' (by decide +kernel) (by decide +kernel) none
    (some fromImage) files #[1, 2, 3, 4, 5] hsame hspares hspares'
  exact ⟨hshown, by decide +kernel, by decide +kernel, by decide +kernel⟩

end Host
end HexBench
