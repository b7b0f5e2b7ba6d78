import HexBench.Proofs.Session.Requests

set_option autoImplicit false

namespace HexBench

namespace Host

def filledAlone (h : Host) (path : String) (o : Image.Options) (words : Option Nat) : Memory :=
  let alone : Host := ⟨{ arguments := [], files := h.session.files }, h.memory⟩
  (alone.perform (.fill path o words)).2.memory

section Null

variable {h : Host} {name : Option Bytes} {hasMemory : Bool} {words : Option Nat}

theorem readmemh_null_agrees (hnull : name = none ∨ hasMemory = false) :
    h.session.AgreesOffLog (h.perform (.readmemh name hasMemory words)).2.session ∧
      (h.session.logger = none → (h.perform (.readmemh name hasMemory words)).2 = h) := by
  rw [readmemh_null hnull]
  refine ⟨h.session.agreesOffLog_log _, fun hunlogged => ?_⟩
  rw [Session.log, hunlogged]

theorem readmemh_null_memory (hnull : name = none ∨ hasMemory = false) :
    (h.perform (.readmemh name hasMemory words)).2.memory = h.memory := by
  rw [readmemh_null hnull]

theorem readmemh_null_unnoticed (hmade : h.session.LogMade)
    (hnull : name = none ∨ hasMemory = false) (rs : List Request) :
    let null := (h.perform (.readmemh name hasMemory words)).2
    (h.performed rs).session.AgreesOffLog (null.performed rs).session ∧
      ((∀ r ∈ rs, h.SparesLog r) → null.resultsAfter rs = h.resultsAfter rs) := by
  intro null
  obtain ⟨hagrees, hunlogged⟩ : h.session.AgreesOffLog null.session ∧ _ :=
    readmemh_null_agrees hnull
  cases hlogger : h.session.logger with
  | none =>
    have hsame : null = h := hunlogged hlogger
    rw [hsame]
    exact ⟨.refl _, fun _ => rfl⟩
  | some l =>
    have hinstalled : h.session.logger.isSome := by rw [hlogger]; rfl
    exact ⟨agrees_performed hagrees rs,
      resultsAfter_agrees hinstalled hmade hagrees (readmemh_null_memory hnull) rs⟩

end Null

/-- The policy is what the first request offers that offers any. Loads by name go by it, or by the
defaults if there is none, and to set it later is refused. Fills do not go by it, and no request
behind one without a name or a memory shows that there was one. -/
theorem policy_set_once (arguments : List String) (filter : Option LogFilter)
    (files : FileTree) (memory : Memory) (before : List Request) :
    let start : Host := ⟨{ arguments, filter, files }, memory⟩
    let policy := before.findSome? (Request.policy? start.session.settings)
    let host := start.performed before
    (∀ name words, host.SparesLog (.readmemh (some name) true words) →
      (host.perform (.readmemh (some name) true words)).2.memory =
        host.filledAlone (Fill.nameOf name) (policy.getD {}) words) ∧
    (∀ o, (host.perform (.configure o)).1 = .configured policy.isNone) ∧
    (∀ path o words,
      (host.perform (.fill path o words)).2.memory = host.filledAlone path o words) ∧
    ∀ name hasMemory words, name = none ∨ hasMemory = false →
      let null := (host.perform (.readmemh name hasMemory words)).2
      null.memory = host.memory ∧ ∀ after,
        (host.performed after).session.AgreesOffLog (null.performed after).session ∧
        ((∀ r ∈ after, host.SparesLog r) → null.resultsAfter after = host.resultsAfter after) := by
  intro start policy host
  have hpolicy : host.session.loading = policy := (performed_keeps start before).1
  have hmade : host.session.LogMade := (onward_performed start before).made nofun
  refine ⟨fun name words hspares => ?_, fun o => ?_, fun path o words => rfl,
    fun name hasMemory words hnull =>
      ⟨readmemh_null_memory hnull, readmemh_null_unnoticed hmade hnull⟩⟩
  · rw [readmemh_memory hspares, Session.loadingOptions, hpolicy]
    rfl
  · rw [perform, Session.configure_eq, hpolicy]

def movedImage : FileTree :=
  { files := [(["a"], (Bytes.ofString ":020000020001FB\n:0400000078563412E8\n").toArray)] }

theorem policy_set_once_by_arguments :
    let start : Host :=
      ⟨{ arguments := ["+log-file=log", "+hex-extended-records"], files := movedImage },
        #[1, 2, 3, 4, 5]⟩
    let before : List Request := [.readmemh none true none, .initialise, .configure {}]
    let load : Request := .readmemh (some (Bytes.ofString "a")) true none
    let host := start.performed before
    let null := (host.perform (.readmemh none true none)).2
    host.SparesLog load ∧
      (host.perform load).2.memory = host.filledAlone "a" ⟨false, true⟩ none ∧
      host.filledAlone "a" ⟨false, true⟩ none = #[1, 2, 3, 4, 0x12345678] ∧
      host.filledAlone "a" {} none = #[0x12345678, 2, 3, 4, 5] ∧
      null.resultsAfter [load] = host.resultsAfter [load] := by
  intro start before load host null
  have himage : load.image? = some "a" := by decide +kernel
  have hleads : (host.session.files.leadsTo "a").toOption = some ["a"] := by decide +kernel
  have hspares : host.SparesLog load := sparesLog_of_leadsTo himage hleads (by decide +kernel)
  obtain ⟨hload, _, _, hnull⟩ :=
    policy_set_once ["+log-file=log", "+hex-extended-records"] none movedImage #[1, 2, 3, 4, 5]
      before
  obtain ⟨_, hresults⟩ := (hnull none true none (.inl rfl)).2 [load]
  have hname : Fill.nameOf (Bytes.ofString "a") = "a" := by decide +kernel
  have hpolicy : (before.findSome? (Request.policy? start.session.settings)).getD {} =
      ⟨false, true⟩ := by decide +kernel
  have hfilled := hload (Bytes.ofString "a") none hspares
  rw [hname, hpolicy] at hfilled
  exact ⟨hspares, hfilled, by decide +kernel, by decide +kernel,
    hresults fun r hr => List.mem_singleton.mp hr ▸ hspares⟩

end Host
end HexBench
