import Ratect.ConvertedRules

/-! # A converted project is accepted

The rules that come after inheritance, for what a native load merges of a converted project
(`Ported.passesProject`), and with them the whole of `load_project_impl`: where a project is
accepted in Batect's format its conversion is accepted in the native one
(`converted_project_accepted`). -/

namespace Ratect

open Paths (Path)

variable {machine machine' : Machine} {unicode : Char → Bool} {threePlaces : ℕ → String}
    {configFile : Path} {loaded loaded' : LoadedConfig}

/-! ### What a task starts -/

/-- The walk looks at nothing of a container but its dependencies. -/
theorem namesInTaskFrom_congr {containers containers' : IndexMap String Config.Container}
    (hsame : ∀ name, (containers'.get? name).map Config.Container.dependsOn =
      (containers.get? name).map Config.Container.dependsOn) (rounds : ℕ)
        (stack names : List String) :
    namesInTaskFrom containers' rounds stack names =
      namesInTaskFrom containers rounds stack names := by
  induction rounds generalizing stack names with
  | zero => rfl
  | succ rounds ih =>
      cases stack with
      | nil => rfl
      | cons name stack =>
          rw [namesInTaskFrom, namesInTaskFrom, hsame name, ih, ih]

theorem Ported.namesInTask (h : Ported unicode loaded loaded') (root : String)
    (taskDependencies : Option (List String)) :
    containerNamesInTask loaded'.config.containers root taskDependencies =
      containerNamesInTask loaded.config.containers root taskDependencies := by
  have hsame : ∀ name, (loaded'.config.containers.get? name).map Config.Container.dependsOn =
      (loaded.config.containers.get? name).map Config.Container.dependsOn := by
    intro name
    rw [h.get? name, Option.map_map]
    congr 1
    funext container
    exact ported_dependsOn name container
  -- The bound on the rounds counts the dependencies of every container, in whatever order.
  have hcount : (declaredDependencies loaded'.config.containers).length =
      (declaredDependencies loaded.config.containers).length := by
    have hperm := h.containers.map_perm (f := fun e => e.2.dependsOn) (g := fun e => e.2.dependsOn)
      fun a b hab => by rw [hab, ported_dependsOn]
    unfold declaredDependencies IndexMap.values
    rw [List.flatMap_map, List.flatMap_map, List.flatMap_def, List.flatMap_def]
    exact hperm.flatten.length_eq
  unfold containerNamesInTask
  rw [namesInTaskFrom_congr hsame, hcount]

/-! ### The rules after inheritance -/

/-- No field of the native format is used but `identity`. -/
structure Config.Container.IdentityAlone (container : Config.Container) : Prop where
  extendsName : container.extendsName = none
  runToCompletion : container.runToCompletion.getD false = false
  externalHealthCheck : container.externalHealthCheck = none
  runIn : ∀ command ∈ container.setupCommands.getD [], command.runIn = none
  scopes : ∀ mount ∈ container.caches, mount.scope = none
  networkMode : container.networkMode = none
  user : container.user = none
  group : container.group = none
  groups : container.groups = none

/-- Caches without a scope do not conflict. -/
theorem checkCacheScopes_unscoped {seen : List (String × Config.CacheScope)}
    {mounts : List Config.CacheVolumeMount} (hseen : ∀ e ∈ seen, e.2 = .project)
    (hmounts : ∀ mount ∈ mounts, mount.scope = none) : checkCacheScopes seen mounts = .ok () := by
  induction mounts generalizing seen with
  | nil => rfl
  | cons mount mounts ih =>
      have hscope : mount.effectiveScope = .project := by
        unfold Config.CacheVolumeMount.effectiveScope
        rw [hmounts mount List.mem_cons_self]
        rfl
      unfold checkCacheScopes
      rw [Except.seq_eq_ok, Except.ensure_eq_ok]
      refine ⟨fun e he _ => (hseen e he).trans hscope.symm, ih ?_ fun m hm =>
        hmounts m (List.mem_cons_of_mem _ hm)⟩
      intro e he
      rcases List.mem_append.mp he with he | he
      · exact hseen e he
      · rw [List.mem_singleton.mp he]
        exact hscope

/-- Where nothing is checked from outside, no name is generated. -/
theorem companions_eq_nil {config : Config}
    (h : ∀ e ∈ config.containers.entries, e.2.externalHealthCheck = none) :
    config.companions = [] := by
  unfold Config.companions
  rw [List.filter_eq_nil_iff.mpr, List.map_nil]
  intro e he
  rw [h e he]
  exact Bool.false_ne_true

/-- A converted container has an identity where it ran as the current user, and then no longer
does. -/
theorem identity_of_ported {name : String} {container : Config.Container}
    {identity : Config.Identity} (hnone : container.identity = none)
    (h : (loaded.ported unicode name container).identity = some identity) :
    (loaded.ported unicode name container).runsAsCurrentUser = false ∧ ∃ home,
      container.runAsCurrentUser = some ⟨true, some home⟩ ∧
        identity = ⟨Expressions.literalAsExpression unicode home, []⟩ := by
  unfold LoadedConfig.ported at h ⊢
  split at h
  · next howned =>
      rw [if_pos howned]
      refine ⟨rfl, ?_⟩
      unfold Config.Container.ported Config.Container.portedIdentity at h
      simp only at h
      split at h
      · next home hhome =>
          cases h
          exact ⟨home, hhome, rfl⟩
      · rw [hnone] at h
        cases h
  · rw [hnone] at h
    cases h

/-- What a container has of its own it does not inherit. -/
theorem rejectInheritedRunAsCurrentUser_own {config : Config} {provenance : Provenance}
    (hown : ∀ name, provenance.suppliersOf name = .own name) :
    rejectInheritedRunAsCurrentUser config provenance = .ok () := by
  refine Except.forM_eq_ok.mpr fun e _ => ?_
  rw [hown e.1]
  exact Except.ensure_eq_ok.mpr (Or.inr rfl)

section project

variable (h : Ported unicode loaded loaded')
    (hreject : rejectIncompatibleFields unicode configFile loaded = .ok ())

include h hreject

theorem Ported.identityAlone {e : String × Config.Container}
    (he : e ∈ loaded'.config.containers.entries) : e.2.IdentityAlone := by
  obtain ⟨container, hc, heq⟩ := h.container he
  have hbatect := h.followsBatect hreject hc
  have hscopes : ∀ mount ∈ e.2.caches, mount.scope = none := by
    rw [heq, ported_caches]
    intro mount hmount
    obtain ⟨volume, hvolume, hcache⟩ := List.mem_filterMap.mp hmount
    cases volume with
    | cache m =>
        cases hcache
        exact hbatect.scopes _ hvolume
    | host => cases hcache
    | tmpfs => cases hcache
  obtain ⟨_, _, _, _, hported⟩ := ported_eq unicode loaded e.1 container
  rw [heq, hported] at hscopes ⊢
  exact ⟨hbatect.extendsName, hbatect.runToCompletion, hbatect.externalHealthCheck,
    hbatect.runIn, hscopes,
    hbatect.networkMode, hbatect.user, hbatect.group, hbatect.groups⟩

theorem Ported.passesReferences
    (hsource : rejectReferencesToUndeclaredContainers loaded.config = .ok ()) :
    rejectReferencesToUndeclaredContainers loaded'.config = .ok () := by
  have hnone : loaded.config.companions = [] :=
    companions_eq_nil fun e he => (h.followsBatect hreject he).externalHealthCheck
  unfold rejectReferencesToUndeclaredContainers at hsource ⊢
  simp only [Except.seq_eq_ok, Except.forM_eq_ok, Except.ensure_eq_ok, hnone, List.not_mem_nil,
    or_false] at hsource ⊢
  obtain ⟨hcontainers, htasks⟩ := hsource
  constructor
  · rintro ⟨name, container'⟩ hc reference hreference
    obtain ⟨container, hc', rfl⟩ := h.container hc
    rw [ported_dependsOn] at hreference
    exact Or.inl (h.mem_keys.mpr (hcontainers (name, container) hc' reference hreference))
  · rintro ⟨name, task'⟩ ht reference hreference
    obtain ⟨task, ht', hsame⟩ := h.task ht
    unfold Config.Task.refersTo at hreference
    rw [hsame.run, hsame.dependencies] at hreference
    exact Or.inl (h.mem_keys.mpr (htasks (name, task) ht' reference hreference))

theorem Ported.passesScopes : rejectConflictingCacheScopes loaded'.config = .ok () := by
  refine checkCacheScopes_unscoped (fun e he => absurd he List.not_mem_nil) ?_
  intro mount hmount
  obtain ⟨container, hcontainer, hin⟩ := List.mem_flatMap.mp hmount
  obtain ⟨e, he, rfl⟩ := List.mem_map.mp hcontainer
  exact (h.identityAlone hreject he).scopes mount hin

theorem Ported.passesRunToCompletion : rejectRunToCompletionConflicts loaded'.config = .ok () := by
  refine Except.forM_eq_ok.mpr fun e he => ?_
  rw [if_neg]
  rw [(h.identityAlone hreject he).runToCompletion]
  exact Bool.false_ne_true

omit hreject in
/-- A container that a conversion leaves with `run_as_current_user` is a bundle's, and as it was. -/
theorem Ported.runsAsCurrentUser {name : String} {container' : Config.Container}
    (hc : (name, container') ∈ loaded'.config.containers.entries)
    (hruns : container'.runsAsCurrentUser = true) :
    (name, container') ∈ loaded.config.containers.entries := by
  obtain ⟨container, hc', rfl⟩ := h.container hc
  unfold LoadedConfig.ported at hruns ⊢
  split at hruns
  · cases hruns
  · next hbundle =>
      rw [if_neg hbundle]
      exact hc'

omit hreject in
theorem Ported.passesRelativeCaches
    (hsource : rejectRelativeCacheMountsUnderUserMapping loaded.config = .ok ()) :
    rejectRelativeCacheMountsUnderUserMapping loaded'.config = .ok () := by
  refine Except.forM_eq_ok.mpr ?_
  rintro ⟨name, container'⟩ hc
  split
  · next hruns =>
      have hcheck := Except.forM_eq_ok.mp hsource _ (h.runsAsCurrentUser hc hruns)
      rw [if_pos hruns] at hcheck
      exact hcheck
  · rfl

omit hreject in
theorem Ported.passesCustomisations
    (hsource : rejectCustomisationsOutsideTheTaskGraph loaded.config = .ok ()) :
    rejectCustomisationsOutsideTheTaskGraph loaded'.config = .ok () := by
  refine Except.forM_eq_ok.mpr ?_
  rintro ⟨name, task'⟩ ht
  obtain ⟨task, ht', hsame⟩ := h.task ht
  have hcheck := Except.forM_eq_ok.mp hsource (name, task) ht'
  have hcustomised := @hsame.mem_customised
  simp only at hcheck ⊢
  rw [hsame.run, hsame.dependencies]
  cases hrun : task.run with
  | none => rfl
  | some run =>
      rw [hrun] at hcheck
      cases hcustomise' : task'.customise with
      | none => rfl
      | some customise' =>
          cases hcustomise : task.customise with
          | none =>
              have hrel := hsame.customise
              rw [hcustomise, hcustomise'] at hrel
              cases hrel
          | some customise =>
              rw [hcustomise] at hcheck
              simp only [hcustomise, hcustomise', Option.map_some, Option.getD_some] at hcustomised
              simp only [h.namesInTask] at hcheck ⊢
              split at hcheck
              · next hnone =>
                  rw [List.find?_eq_none.mpr]
                  intro customised hin
                  exact List.find?_eq_none.mp hnone customised (hcustomised.mp hin)
              · cases hcheck

theorem Ported.passesSetupCommands : validateSetupCommandTargets loaded'.config = .ok () := by
  refine Except.forM_eq_ok.mpr fun e he => Except.forM_eq_ok.mpr fun command hcommand => ?_
  unfold validateSetupCommand
  rw [(h.identityAlone hreject he).runIn command hcommand]

theorem Ported.passesNetworkModes : validateNetworkModes loaded'.config = .ok () := by
  unfold validateNetworkModes
  rw [Except.seq_eq_ok]
  constructor
  · refine Except.forM_eq_ok.mpr fun e he => ?_
    unfold validateNetworkMode
    rw [(h.identityAlone hreject he).networkMode]
  · refine Except.forM_eq_ok.mpr fun e _ => Except.forM_eq_ok.mpr fun name _ => ?_
    unfold validatePublished
    cases hget : loaded'.config.containers.get? name with
    | none => rfl
    | some container =>
        rw [Option.bind_some, (h.identityAlone hreject
          (IndexMap.mem_entries_of_get? hget)).networkMode]

/-- Beside an identity the caches are absolute, as they had to be where the container ran as the
current user. -/
theorem Ported.passesIdentity
    (hsource : rejectRelativeCacheMountsUnderUserMapping loaded.config = .ok ()) :
    validateIdentity loaded'.config = .ok () := by
  refine Except.forM_eq_ok.mpr ?_
  rintro ⟨name, container'⟩ hc
  have halone := h.identityAlone hreject hc
  obtain ⟨container, hc', rfl⟩ := h.container hc
  have hbatect := h.followsBatect hreject hc'
  cases hidentity : (loaded.ported unicode name container).identity with
  | none => rfl
  | some identity =>
      obtain ⟨howned, home, hhome, rfl⟩ := identity_of_ported hbatect.identity hidentity
      have hruns : container.runsAsCurrentUser = true := by
        unfold Config.Container.runsAsCurrentUser
        rw [hhome]
        rfl
      have hcaches := Except.forM_eq_ok.mp hsource (name, container) hc'
      rw [if_pos hruns] at hcaches
      show validateContainerIdentity name (loaded.ported unicode name container) _ = .ok ()
      unfold validateContainerIdentity
      rw [halone.user, halone.group, ported_caches]
      simp only [Except.seq_eq_ok, Except.forM_eq_ok, Except.ensure_eq_ok] at hcaches ⊢
      exact ⟨rfl, rfl, howned, hcaches⟩

theorem Ported.passesPassthroughIdentity : validatePassthroughIdentity loaded'.config = .ok () := by
  refine Except.forM_eq_ok.mpr fun e he => ?_
  have halone := h.identityAlone hreject he
  rw [halone.user, halone.group, halone.groups]
  rfl

theorem Ported.passesProject {provenance provenance' : Provenance}
    (hown : ∀ name, provenance'.suppliersOf name = .own name)
    (hsource : checkProject loaded.config provenance = .ok ()) :
    checkProject loaded'.config provenance' = .ok () := by
  unfold checkProject at hsource ⊢
  simp only [Except.seq_eq_ok] at hsource ⊢
  obtain ⟨hreferences, -, -, hcaches, hcustomisations, -⟩ := hsource
  exact ⟨h.passesReferences hreject hreferences, h.passesScopes hreject,
    h.passesRunToCompletion hreject,
    h.passesRelativeCaches hcaches, h.passesCustomisations hcustomisations,
    h.passesSetupCommands hreject,
    h.passesNetworkModes hreject, h.passesIdentity hreject hcaches,
    h.passesPassthroughIdentity hreject,
    rejectInheritedRunAsCurrentUser_own hown⟩

end project

/-! ### The whole load -/

/-- Where nothing is checked from outside, nothing is generated. -/
theorem expandExternalHealthChecks_unchecked (threePlaces : ℕ → String) {config : Config}
    (h : ∀ e ∈ config.containers.entries, e.2.externalHealthCheck = none) :
    expandExternalHealthChecks threePlaces config = .ok config := by
  have hchecked : config.checked = [] := by
    unfold Config.checked
    rw [List.filterMap_eq_nil_iff]
    intro e he
    rw [h e he]
    rfl
  have hcontainers : (config.containers.entries.forM fun e =>
      checkField (checkExternalHealthCheck e.1 e.2)
      e.2.externalHealthCheck) = .ok () := by
    refine Except.forM_eq_ok.mpr fun e he => ?_
    rw [h e he]
    rfl
  unfold expandExternalHealthChecks
  rw [hchecked]
  exact Except.bind_eq_ok.mpr ⟨(), hcontainers, rfl⟩

/-- What every check passes, and what is made of it. -/
theorem loadProjectImpl_eq_ok {project : LoadedProject} :
    loadProjectImpl machine unicode threePlaces configFile loaded = .ok project ↔
      rejectIncompatibleFields unicode configFile loaded = .ok () ∧
        validateDnsServers loaded.config = .ok () ∧
        ∃ directory, projectDirectoryPath machine (basePathFor configFile) = .ok directory ∧
          checkValues machine unicode loaded.config loaded.provenance directory = .ok () ∧
          ∃ inherited, loaded.format.inherited loaded.config.containers = .ok inherited ∧
            checkProject { loaded.config with containers := inherited.1 }
              { loaded.provenance with suppliers := inherited.2 } =
              .ok () ∧
            ∃ config,
              loaded.format.expanded threePlaces
                { loaded.config with containers := inherited.1 } = .ok config ∧
              project = ⟨config, directory, loaded.format,
                { loaded.provenance with suppliers := inherited.2 }⟩ := by
  unfold loadProjectImpl
  rw [Except.seq_eq_ok, Except.seq_eq_ok, Except.bind_eq_ok]
  refine and_congr_right' (and_congr_right' (exists_congr fun directory => and_congr_right' ?_))
  rw [Except.seq_eq_ok, Except.bind_eq_ok]
  refine and_congr_right' (exists_congr fun inherited => and_congr_right' ?_)
  rw [Except.seq_eq_ok, Except.bind_eq_ok]
  refine and_congr_right' (exists_congr fun config => and_congr_right' ?_)
  exact ⟨fun h => (Except.ok.inj h).symm, fun h => congrArg Except.ok h.symm⟩

/-- A converted project is accepted as it is loaded, or refused for a home that holds a `..`. -/
theorem Ported.accepted (h : Ported unicode loaded loaded') {configFile' : Path}
    (hdirectory : projectDirectoryPath machine (basePathFor configFile') =
      projectDirectoryPath machine (basePathFor configFile))
    {project : LoadedProject}
    (haccepted : loadProjectImpl machine unicode threePlaces configFile loaded = .ok project) :
    (loaded.DotlessHomes unicode → ∃ project',
        loadProjectImpl machine unicode threePlaces configFile' loaded' = .ok project' ∧
          project'.config = loaded'.config ∧ project'.projectDirectory = project.projectDirectory) ∧
      (¬ loaded.DotlessHomes unicode → ∃ message,
        loadProjectImpl machine unicode threePlaces configFile' loaded' = .error message) := by
  obtain ⟨hreject, -, directory, hsource, hvalues, _, hinherited, hproject, config, -, rfl⟩ :=
    loadProjectImpl_eq_ok.mp haccepted
  rw [h.source] at hinherited
  cases hinherited
  constructor
  · intro hdots
    obtain ⟨resolved, hresolved, hown⟩ :=
      resolveExtends_plain fun e he => (h.identityAlone hreject he).extendsName
    have hinherited : loaded'.format.inherited loaded'.config.containers =
        .ok (loaded'.config.containers, resolved) := by
      rw [h.format]
      unfold ConfigFormat.inherited
      rw [hresolved]
    have hunchecked : loaded'.format.expanded threePlaces loaded'.config = .ok loaded'.config := by
      rw [h.format]
      exact expandExternalHealthChecks_unchecked threePlaces fun e he =>
        (h.identityAlone hreject he).externalHealthCheck
    refine ⟨_, loadProjectImpl_eq_ok.mpr
      ⟨h.passesFields hreject configFile', h.passesDnsServers hreject, directory,
      hdirectory.trans hsource, (h.passesValues hreject hvalues).mpr hdots, _, hinherited,
      h.passesProject hreject hown hproject, _, hunchecked, rfl⟩, rfl, rfl⟩
  · intro hdots
    cases hresult : loadProjectImpl machine unicode threePlaces configFile' loaded' with
    | error message => exact ⟨message, rfl⟩
    | ok project' =>
        obtain ⟨-, -, found, hfound, hported, -⟩ := loadProjectImpl_eq_ok.mp hresult
        obtain rfl : found = directory :=
          Except.ok.inj (hfound.symm.trans (hdirectory.trans hsource))
        exact absurd ((h.passesValues hreject hvalues).mp hported) hdots

/-! ### The converted project -/

/-- A project's directory is that of its root file. -/
theorem projectDirectoryPath_of_absolute (hgrounded : machine.Grounded) {path dir : Path}
    {n : Paths.Name} (hname : (Paths.fileName path).isSome = true)
    (h : absolutePath machine path = .ok (dir ++ [.normal n])) :
    projectDirectoryPath machine (basePathFor path) = .ok dir := by
  obtain ⟨k, hk⟩ := Option.isSome_iff_exists.mp hname
  obtain ⟨base, rfl⟩ := Paths.fileName_eq_some.mp hk
  unfold basePathFor projectDirectoryPath
  rw [Paths.parent_concat, Option.getD_some]
  unfold absolutePath at h
  cases hcurrent : machine.currentDir with
  | error e =>
      rw [hcurrent] at h
      cases h
  | ok current =>
      rw [hcurrent] at h
      have habsolute : Paths.isAbsolute (Paths.join current base) = true :=
        Paths.isAbsolute_join (hgrounded.currentDir current hcurrent).1
      have hclean := Except.ok.inj h
      rw [Paths.join_concat, Paths.clean_concat habsolute] at hclean
      exact congrArg Except.ok (List.append_inj_left' hclean rfl)

theorem projectDirectoryPath_extends (h : machine.Extends machine') (path : Path) :
    projectDirectoryPath machine' path = projectDirectoryPath machine path := by
  unfold projectDirectoryPath
  rw [h.currentDir]

/-- The converted root is read from the directory of its source. -/
theorem LoadsConverted.projectDirectory {running : Option String} {rounds : ℕ} {path : Path}
    {files : List ConvertedFile} {root : LoadedFile} {first : ConvertedFile}
    (h : LoadsConverted machine machine' unicode running rounds path loaded
      files root first loaded')
    (hgrounded : machine.Grounded) (hname : (Paths.fileName path).isSome = true) :
    projectDirectoryPath machine' (basePathFor first.target) =
      projectDirectoryPath machine' (basePathFor path) := by
  have htarget := h.target
  have hsource := h.source
  obtain ⟨dir, n, m, hpath, hbeside, -⟩ := (h.rewritten.owned root h.owned).beside
  rw [absolutePath_extends h.rewritten.machines, h.place, hbeside] at htarget
  rw [hpath] at hsource
  have hfile : (Paths.fileName (dir ++ [.normal m])).isSome = true := by
    rw [Paths.fileName_concat]
    rfl
  rw [h.place, hbeside, projectDirectoryPath_extends h.rewritten.machines,
    projectDirectoryPath_extends h.rewritten.machines,
    projectDirectoryPath_of_absolute hgrounded hfile htarget,
    projectDirectoryPath_of_absolute hgrounded hname hsource]

theorem loadFromFile_format {format : ConfigFormat} {running : Option String} {rounds : ℕ}
    {path : Path} (h : loadFromFile machine format running rounds path = some (.ok loaded)) :
    loaded.format = format := by
  obtain ⟨root, -, -, hload⟩ := loadFromFile_ok h
  obtain ⟨t, -, hfinish⟩ := loadFrom_ok hload
  exact (finishLoad_keeps hfinish).2

/-- **A converted project is accepted.**  Where a project that Batect's rules accept is converted,
its conversion loads and is accepted by the native rules, in the same project directory and with its
containers as they were converted, unless the home of a container that ran as the current user holds
a `..`; then it is refused. -/
theorem converted_project_accepted {running : Option String} (running' : Option String) {rounds : ℕ}
    {path : Path} {render : Document → Option String → Except String Text} {writtenFor : String}
    {files : List ConvertedFile} {project : LoadedProject}
    (hload : loadFromFile machine .compat running rounds path = some (.ok loaded))
    (hconvert : convertProject machine loaded unicode render writtenFor = .ok files)
    (hwrote : machine.Wrote machine' files) (hgrounded : machine.Grounded)
    (hjudges : machine'.JudgesYaml) (hpath : Paths.Proper path)
    (hname : (Paths.fileName path).isSome = true) (hcarries : loaded.CarriesOver)
    (hnested : ∀ c ∈ files, ∀ check ∈ c.checks, check.kind ≠ .bundleDeclaresGitIncludes)
    (haccepted : loadProjectImpl machine' unicode threePlaces path loaded = .ok project) :
    ∃ first loaded', files.head? = some first ∧
      loadFromFile machine' .native running' rounds first.target = some (.ok loaded') ∧
        Ported unicode loaded loaded' ∧
      (loaded.DotlessHomes unicode → ∃ project',
        loadProjectImpl machine' unicode threePlaces first.target loaded' = .ok project' ∧
          project'.config = loaded'.config ∧ project'.projectDirectory = project.projectDirectory) ∧
      (¬ loaded.DotlessHomes unicode → ∃ message,
        loadProjectImpl machine' unicode threePlaces first.target loaded' = .error message) := by
  obtain ⟨root, first, loaded', h⟩ :=
    loads_converted running' hload hconvert hwrote hgrounded hjudges hpath hname hcarries hnested
  have hported : Ported unicode loaded loaded' :=
    ported_of_rewritten h.rewritten hcarries (loadFromFile_merge hload)
    (loadFromFile_merge h.load) h.files (loadFromFile_format hload) (loadFromFile_format h.load)
  exact ⟨first, loaded', h.head, h.load, hported,
    hported.accepted (h.projectDirectory hgrounded hname) haccepted⟩

/-- A project of a container that runs as the current user with a home, with an include of its own
and a bundle. -/
def acceptedProject (home : Text) : Machine :=
  let container : Config.Container := { image := some "alpine".toList }
  Machine.inMemory (Paths.ofText "/p".toList) (Paths.ofText "/h".toList)
    [ (Paths.ofText "/p/batect.yml".toList,
        { includes := [.file "more/a.yml".toList, .git ⟨"x"⟩ "1.0" none true none none]
          containers :=
            .single "root" { container with runAsCurrentUser := some ⟨true, some home⟩ } }),
      (Paths.ofText "/p/more/a.yml".toList,
        { containers := .single "a" { container with dependencies := some ["root"] } }),
      (Paths.ofText "/cache/x/batect-bundle.yml".toList, { containers := .single "x" container }) ]
    [((⟨"x"⟩, "1.0"), Paths.ofText "/cache/x".toList)]

theorem grounded_acceptedProject (home : Text) : (acceptedProject home).Grounded := by
  refine grounded_inMemory (rooted_ofText_clean (by decide +kernel) (by decide +kernel))
    (rooted_ofText_clean (by decide +kernel) (by decide +kernel)) ?_
  intro e he
  rw [List.mem_singleton] at he
  rw [he]
  exact rooted_cached

/-- A test of `DotlessHomes`. -/
def LoadedConfig.dotless (loaded : LoadedConfig) (unicode : Char → Bool) : Bool :=
  loaded.config.containers.entries.all fun e =>
    (loaded.containerBoundaries.get? e.1).isSome || e.2.runAsCurrentUser.all fun user =>
      !user.enabled || user.homeDirectory.all fun home =>
        !identityHomeHasAParentComponent home || becomesExpression unicode home

theorem dotless_iff : loaded.dotless unicode = true ↔ loaded.DotlessHomes unicode := by
  unfold LoadedConfig.dotless
  rw [List.all_eq_true]
  constructor
  · intro h name container hc hplain home hhome hdots
    have htest := h _ hc
    rw [hplain, hhome] at htest
    simpa [hdots] using htest
  · rintro h ⟨name, container⟩ hc
    dsimp only
    rw [Bool.or_eq_true]
    cases hplain : loaded.containerBoundaries.get? name with
    | some boundary => exact .inl rfl
    | none =>
        refine .inr ?_
        cases huser : container.runAsCurrentUser with
        | none => rfl
        | some user =>
            obtain ⟨enabled, homeDirectory⟩ := user
            cases enabled with
            | false => rfl
            | true =>
                cases homeDirectory with
                | none => rfl
                | some home =>
                    cases hdots : identityHomeHasAParentComponent home with
                    | false => simp [hdots]
                    | true => simpa [hdots] using h name container hc hplain home huser hdots

/-- The project loads and is converted, Batect's rules accept it, and a test says whether its homes
hold a `..`. -/
def acceptedRun (home : Text) (dotless : Bool) : Bool :=
  Loop.succeeds (fun loaded => (loaded.carries && (loaded.dotless (fun _ => false) == dotless)) &&
    Loop.succeeds (fun files : List ConvertedFile =>
      (files.all fun c => c.checks.all fun check =>
        decide (check.kind ≠ .bundleDeclaresGitIncludes)) &&
        Loop.succeeds (fun project : LoadedProject =>
          decide (project.projectDirectory = Paths.ofText "/p".toList))
          (some (loadProjectImpl ((acceptedProject home).writing files)
            (fun _ => false) (fun _ => "")
            (Paths.ofText "/p/batect.yml".toList) loaded)))
      (some (convertProject (acceptedProject home) loaded (fun _ => false)
        (fun _ _ => .ok []) "0.1.0")))
    (loadFromFile (acceptedProject home) .compat none 10 (Paths.ofText "/p/batect.yml".toList))

theorem of_acceptedRun {home : Text} {dotless : Bool} (h : acceptedRun home dotless = true) :
    ∃ loaded files project,
      loadFromFile (acceptedProject home) .compat none 10
        (Paths.ofText "/p/batect.yml".toList) = some (.ok loaded) ∧
        convertProject (acceptedProject home) loaded (fun _ => false) (fun _ _ => .ok [])
          "0.1.0" = .ok files ∧
        (acceptedProject home).Wrote ((acceptedProject home).writing files) files ∧
          loaded.CarriesOver ∧
        (∀ c ∈ files, ∀ check ∈ c.checks, check.kind ≠ .bundleDeclaresGitIncludes) ∧
        loadProjectImpl ((acceptedProject home).writing files) (fun _ => false) (fun _ => "")
          (Paths.ofText "/p/batect.yml".toList) loaded = .ok project ∧
        project.projectDirectory = Paths.ofText "/p".toList ∧
        (loaded.DotlessHomes (fun _ => false) ↔ dotless = true) := by
  obtain ⟨loaded, hloaded, htest⟩ := Loop.exists_of_succeeds h
  obtain ⟨hloadedTest, hconvert⟩ := Bool.and_eq_true _ _ |>.mp htest
  obtain ⟨hcarries, hdotless⟩ := Bool.and_eq_true _ _ |>.mp hloadedTest
  obtain ⟨files, hfiles, htest⟩ := Loop.exists_of_succeeds hconvert
  obtain ⟨hchecks, haccepted⟩ := Bool.and_eq_true _ _ |>.mp htest
  obtain ⟨project, hproject, hdirectory⟩ := Loop.exists_of_succeeds haccepted
  have hfiles := Option.some.inj hfiles
  obtain ⟨root, hfound⟩ := found_of_load hloaded
  refine ⟨loaded, files, project, hloaded, hfiles,
    wrote_writing (answers_of_ok hfound hfiles).distinct,
    carriesOver_of_carries hcarries, ?_, Option.some.inj hproject, of_decide_eq_true hdirectory, ?_⟩
  · intro c hc check hcheck
    exact of_decide_eq_true (List.all_eq_true.mp (List.all_eq_true.mp hchecks c hc) check hcheck)
  · rw [← dotless_iff, beq_iff_eq.mp hdotless]

/-- A home without a `..` is accepted, and one with a `..` that Batect's rules accept is refused. -/
theorem converted_project_accepted_home :
    (∃ loaded files first loaded' project',
      loadFromFile (acceptedProject "/home/me".toList) .compat none 10
        (Paths.ofText "/p/batect.yml".toList) =
          some (.ok loaded) ∧
        convertProject (acceptedProject "/home/me".toList) loaded (fun _ => false)
          (fun _ _ => .ok []) "0.1.0" =
          .ok files ∧
        files.head? = some first ∧
        loadFromFile ((acceptedProject "/home/me".toList).writing files) .native
          none 10 first.target =
          some (.ok loaded') ∧
        loadProjectImpl ((acceptedProject "/home/me".toList).writing files)
          (fun _ => false) (fun _ => "")
          first.target loaded' = .ok project' ∧
        project'.projectDirectory = Paths.ofText "/p".toList) ∧
    ∃ loaded files first loaded' message,
      loadFromFile (acceptedProject "/home/../me".toList) .compat none 10
        (Paths.ofText "/p/batect.yml".toList) =
          some (.ok loaded) ∧
        convertProject (acceptedProject "/home/../me".toList) loaded (fun _ => false)
          (fun _ _ => .ok []) "0.1.0" =
          .ok files ∧
        files.head? = some first ∧
        loadFromFile ((acceptedProject "/home/../me".toList).writing files) .native
          none 10 first.target =
          some (.ok loaded') ∧
        loadProjectImpl ((acceptedProject "/home/../me".toList).writing files)
          (fun _ => false) (fun _ => "")
          first.target loaded' = .error message := by
  constructor
  · have hrun : acceptedRun "/home/me".toList true = true := by decide +kernel
    obtain ⟨loaded, files, project, hloaded, hfiles, hwrote, hcarries, hchecks, hproject,
      hdirectory, hdotless⟩ :=
      of_acceptedRun hrun
    obtain ⟨first, loaded', hfirst, hnative, -, haccepts, -⟩ :=
      converted_project_accepted none hloaded hfiles hwrote
      (grounded_acceptedProject _) ⟨fun _ _ => Or.inr rfl, fun _ _ _ _ _ => rfl⟩
        (Paths.proper_ofText _)
      (by decide +kernel) hcarries hchecks hproject
    obtain ⟨project', hproject', -, hsame⟩ := haccepts (hdotless.mpr rfl)
    exact ⟨loaded, files, first, loaded', project', hloaded, hfiles, hfirst, hnative, hproject',
      hsame.trans hdirectory⟩
  · have hrun : acceptedRun "/home/../me".toList false = true := by decide +kernel
    obtain ⟨loaded, files, project, hloaded, hfiles, hwrote, hcarries, hchecks,
      hproject, -, hdotless⟩ :=
      of_acceptedRun hrun
    obtain ⟨first, loaded', hfirst, hnative, -, -, hrefuses⟩ :=
      converted_project_accepted none hloaded hfiles hwrote
      (grounded_acceptedProject _) ⟨fun _ _ => Or.inr rfl, fun _ _ _ _ _ => rfl⟩
        (Paths.proper_ofText _)
      (by decide +kernel) hcarries hchecks hproject
    obtain ⟨message, hmessage⟩ := hrefuses fun h => Bool.noConfusion (hdotless.mp h)
    exact ⟨loaded, files, first, loaded', message, hloaded, hfiles, hfirst, hnative, hmessage⟩

end Ratect
