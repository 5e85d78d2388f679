import Ratect.ProjectRules

/-! # Loading a project

`load_project_impl` (`config.rs`): the rules for what is declared, inheritance, the rules for what
each container ends up with, and the expansion of external health checks; inheritance and the
expansion belong to the native format alone. -/

namespace Ratect

open Paths (Path)

/-- `LoadedConfig::provenance`: before inheritance, every container supplies its own fields. -/
def LoadedConfig.provenance (loaded : LoadedConfig) : Provenance where
  basePaths := loaded.containerBasePaths
  boundaries := loaded.containerBoundaries
  batectShaped := loaded.config.containers.keys.filter fun name =>
    loaded.format.isBatectShaped (loaded.containerOrigins.get? name)
  suppliers := []

/-- `base_path_for`. -/
def basePathFor (configFile : Path) : Path := (Paths.parent configFile).getD [.cur]

/-- `project_directory_path`. -/
def projectDirectoryPath (machine : Machine) (basePath : Path) : Except String Path := do
  let dir ← machine.currentDir
  return Paths.clean (Paths.join dir basePath)

/-- `resolve_extends` where the format has inheritance; elsewhere everything is as declared. -/
def ConfigFormat.inherited (format : ConfigFormat) (containers : IndexMap String Config.Container) :
    Except String (IndexMap String Config.Container × ResolvedContainers) :=
  match format with
  | .compat => .ok (containers, [])
  | .native =>
      match resolveExtends containers with
      | .ok resolved => .ok resolved
      | .error e => .error e.message

section load

variable (machine : Machine) (unicode : Char → Bool) (threePlaces : ℕ → String)

/-- The rules after inheritance. -/
def checkProject (config : Config) (provenance : Provenance) : Except String Unit := do
  rejectReferencesToUndeclaredContainers config
  rejectConflictingCacheScopes config
  rejectRunToCompletionConflicts config
  rejectRelativeCacheMountsUnderUserMapping config
  rejectCustomisationsOutsideTheTaskGraph config
  validateSetupCommandTargets config
  validateNetworkModes config
  validateIdentity config
  validatePassthroughIdentity config
  rejectInheritedRunAsCurrentUser config provenance

/-- `expand_external_health_checks` where the format has them. -/
def ConfigFormat.expanded (format : ConfigFormat) (config : Config) : Except String Config :=
  match format with
  | .compat => .ok config
  | .native => expandExternalHealthChecks threePlaces config

/-- `load_project_impl`. -/
def loadProjectImpl (configFile : Path) (loaded : LoadedConfig) : Except String LoadedProject := do
  rejectIncompatibleFields unicode configFile loaded
  validateDnsServers loaded.config
  let projectDirectory ← projectDirectoryPath machine (basePathFor configFile)
  checkValues machine unicode loaded.config loaded.provenance projectDirectory
  let (containers, suppliers) ← loaded.format.inherited loaded.config.containers
  let config := { loaded.config with containers := containers }
  let provenance := { loaded.provenance with suppliers := suppliers }
  checkProject config provenance
  let config ← loaded.format.expanded threePlaces config
  return ⟨config, projectDirectory, loaded.format, provenance⟩

end load

/-! ### What the expansion changes -/

section expansion

variable {allowed : List String}

/-- A list of dependencies that was only added to, and only from `allowed`. -/
def Gains (allowed : List String) (before after : Option (List String)) : Prop :=
  ∃ added, added ⊆ allowed ∧ after = before.map (· ++ added)

theorem Gains.refl (before : Option (List String)) : Gains allowed before before :=
  ⟨[], List.nil_subset _, by simp⟩

theorem Gains.trans {before mid after : Option (List String)} (h : Gains allowed before mid)
    (h' : Gains allowed mid after) : Gains allowed before after := by
  obtain ⟨added, hadded, rfl⟩ := h
  obtain ⟨added', hadded', rfl⟩ := h'
  refine ⟨added ++ added', List.append_subset.mpr ⟨hadded, hadded'⟩, ?_⟩
  rw [Option.map_map]
  congr 1
  funext dependencies
  exact List.append_assoc _ _ _

theorem Gains.subset {before after : Option (List String)} (h : Gains allowed before after) :
    before.getD [] ⊆ after.getD [] := by
  obtain ⟨added, -, rfl⟩ := h
  cases before with
  | none => exact List.nil_subset _
  | some dependencies => exact List.subset_append_left _ _

theorem Gains.mem {before after : Option (List String)} (h : Gains allowed before after)
    {d : String} (hd : d ∈ after.getD []) : d ∈ before.getD [] ∨ d ∈ allowed := by
  obtain ⟨added, hadded, rfl⟩ := h
  cases before with
  | none => cases hd
  | some dependencies => exact (List.mem_append.mp hd).imp_right (hadded ·)

theorem addDependencyAfter_gains {target companion : String} (hcompanion : companion ∈ allowed)
    (dependencies : Option (List String)) :
    Gains allowed dependencies (addDependencyAfter target companion dependencies) := by
  cases dependencies with
  | none => exact ⟨[], List.nil_subset _, rfl⟩
  | some dependencies =>
      simp only [addDependencyAfter]
      split
      · exact ⟨[companion], by simpa using hcompanion, rfl⟩
      · exact Gains.refl _

/-- The same container or task with dependencies gained. -/
structure GainsDependencies (allowed : List String) (before after : Config) : Prop where
  keys : after.containers.keys = before.containers.keys
  containers : ∀ name container, (name, container) ∈ after.containers.entries →
    ∃ container', (name, container') ∈ before.containers.entries ∧
      Gains allowed container'.dependencies container.dependencies ∧
      container = { container' with dependencies := container.dependencies }
  tasks : ∀ name task, (name, task) ∈ after.tasks.entries →
    ∃ task', (name, task') ∈ before.tasks.entries ∧
      Gains allowed task'.dependencies task.dependencies ∧
      task = { task' with dependencies := task.dependencies }

theorem GainsDependencies.refl (config : Config) : GainsDependencies allowed config config :=
  ⟨rfl, fun _ container h => ⟨container, h, Gains.refl _, rfl⟩, fun _ task h =>
    ⟨task, h, Gains.refl _, rfl⟩⟩

theorem GainsDependencies.trans {before mid after : Config}
    (h : GainsDependencies allowed before mid) (h' : GainsDependencies allowed mid after) :
    GainsDependencies allowed before after := by
  refine ⟨h'.keys.trans h.keys, ?_, ?_⟩
  · intro name container hc
    obtain ⟨container', hc', hgains', heq'⟩ := h'.containers name container hc
    obtain ⟨container'', hc'', hgains, heq⟩ := h.containers name container' hc'
    refine ⟨container'', hc'', hgains.trans hgains', ?_⟩
    rw [heq', heq]
  · intro name task ht
    obtain ⟨task', ht', hgains', heq'⟩ := h'.tasks name task ht
    obtain ⟨task'', ht'', hgains, heq⟩ := h.tasks name task' ht'
    refine ⟨task'', ht'', hgains.trans hgains', ?_⟩
    rw [heq', heq]

theorem awaitCompanion_gains {name : String}
    (hcompanion : externalHealthCheckContainerName name ∈ allowed) (config : Config) :
    GainsDependencies allowed config (config.awaitCompanion name) := by
  refine ⟨IndexMap.keys_mapEntries _ _, ?_, ?_⟩
  · intro other container hc
    obtain ⟨container', hc', rfl⟩ := IndexMap.mem_mapEntries.mp hc
    refine ⟨container', hc', ?_⟩
    split
    · exact ⟨Gains.refl _, rfl⟩
    · exact ⟨addDependencyAfter_gains hcompanion _, rfl⟩
  · intro other task ht
    obtain ⟨task', ht', rfl⟩ := IndexMap.mem_mapEntries.mp ht
    exact ⟨task', ht', addDependencyAfter_gains hcompanion _, rfl⟩

theorem awaitAll_gains {checked : List (String × Config.ExternalHealthCheck)}
    (hchecked : ∀ e ∈ checked, externalHealthCheckContainerName e.1 ∈ allowed) (config : Config) :
    GainsDependencies allowed config
      (checked.foldl (fun config e => config.awaitCompanion e.1) config) := by
  induction checked generalizing config with
  | nil => exact GainsDependencies.refl config
  | cons e checked ih =>
      exact (awaitCompanion_gains (hchecked e (by simp)) config).trans
        (ih (fun e' he' => hchecked e' (by simp [he'])) (config.awaitCompanion e.1))

/-- Adding the generated containers adds their names and nothing else. -/
theorem addCompanions (threePlaces : ℕ → String)
    (checked : List (String × Config.ExternalHealthCheck)) (config : Config) :
    (∀ name, name ∈ (checked.foldl (Config.addCompanion threePlaces) config).containers.keys ↔
      name ∈ config.containers.keys ∨ name ∈ checked.map fun e =>
        externalHealthCheckContainerName e.1) ∧
    (∀ name container,
      (name, container) ∈ (checked.foldl (Config.addCompanion threePlaces)
        config).containers.entries →
      (name, container) ∈ config.containers.entries ∨
        ∃ e ∈ checked, name = externalHealthCheckContainerName e.1 ∧
          container = companionOf threePlaces e.1 e.2) ∧
    (checked.foldl (Config.addCompanion threePlaces) config).tasks = config.tasks := by
  induction checked generalizing config with
  | nil => simp
  | cons e checked ih =>
      obtain ⟨hkeys, hentries, htasks⟩ := ih (config.addCompanion threePlaces e)
      refine ⟨?_, ?_, htasks⟩
      · intro name
        rw [List.foldl_cons, hkeys]
        unfold Config.addCompanion
        rw [IndexMap.mem_keys_insert, List.map_cons, List.mem_cons, or_assoc]
      · intro name container hc
        rcases hentries name container hc with hc | ⟨e', he', h⟩
        · rcases IndexMap.mem_entries_insert hc with hc | ⟨rfl, rfl⟩
          · exact Or.inl hc
          · exact Or.inr ⟨e, List.mem_cons_self, rfl, rfl⟩
        · exact Or.inr ⟨e', List.mem_cons_of_mem _ he', h⟩

theorem mem_companions {config : Config} {name : String} :
    name ∈ config.companions ↔
      ∃ e ∈ config.checked, name = externalHealthCheckContainerName e.1 := by
  unfold Config.companions Config.checked
  simp only [List.mem_map, List.mem_filter, List.mem_filterMap, Option.map_eq_some_iff,
    Option.isSome_iff_exists]
  constructor
  · rintro ⟨⟨n, c⟩, ⟨hmem, check, hcheck⟩, rfl⟩
    exact ⟨(n, check), ⟨(n, c), hmem, check, hcheck, rfl⟩, rfl⟩
  · rintro ⟨_, ⟨⟨n, c⟩, hmem, check, hcheck, rfl⟩, rfl⟩
    exact ⟨(n, c), ⟨hmem, check, hcheck⟩, rfl⟩

/-- What a project holds after the expansion: what it held, with dependencies on generated
containers gained, and the generated containers. -/
structure Expansion (threePlaces : ℕ → String) (before after : Config) : Prop where
  keys : ∀ name, name ∈ after.containers.keys ↔
    name ∈ before.containers.keys ∨ name ∈ before.companions
  containers : ∀ name container, (name, container) ∈ after.containers.entries →
    ∃ container', ((name, container') ∈ before.containers.entries ∨
        ∃ checked check, checked ∈ before.containers.keys ∧
          name = externalHealthCheckContainerName checked ∧
            container' = companionOf threePlaces checked check) ∧
      Gains before.companions container'.dependencies container.dependencies ∧
      container = { container' with dependencies := container.dependencies }
  tasks : ∀ name task, (name, task) ∈ after.tasks.entries →
    ∃ task', (name, task') ∈ before.tasks.entries ∧
      Gains before.companions task'.dependencies task.dependencies ∧
      task = { task' with dependencies := task.dependencies }

theorem expandExternalHealthChecks_ok {threePlaces : ℕ → String} {config config' : Config}
    (h : expandExternalHealthChecks threePlaces config = .ok config') :
    Expansion threePlaces config config' := by
  unfold expandExternalHealthChecks at h
  obtain ⟨⟨⟩, -, h⟩ := Except.bind_eq_ok.mp h
  obtain ⟨⟨⟩, -, h⟩ := Except.bind_eq_ok.mp h
  cases h
  have hallowed : ∀ e ∈ config.checked, externalHealthCheckContainerName e.1 ∈ config.companions :=
    fun e he => mem_companions.mpr ⟨e, he, rfl⟩
  obtain ⟨hkeys, hentries, htasks⟩ := addCompanions threePlaces config.checked config
  have hgains :=
    awaitAll_gains hallowed (config.checked.foldl (Config.addCompanion threePlaces) config)
  refine ⟨?_, ?_, ?_⟩
  · intro name
    rw [hgains.keys, hkeys, mem_companions]
    simp only [List.mem_map, eq_comm]
  · intro name container hc
    obtain ⟨container', hc', hg, heq⟩ := hgains.containers name container hc
    refine ⟨container', ?_, hg, heq⟩
    rcases hentries name container' hc' with hc' | ⟨e, he, hname, hcompanion⟩
    · exact Or.inl hc'
    · refine Or.inr ⟨e.1, e.2, ?_, hname, hcompanion⟩
      obtain ⟨⟨n, c⟩, hmem, hcheck⟩ := List.mem_filterMap.mp he
      obtain ⟨check, -, rfl⟩ := Option.map_eq_some_iff.mp hcheck
      exact IndexMap.mem_keys_of_mem hmem
  · intro name task ht
    obtain ⟨task', ht', hg, heq⟩ := hgains.tasks name task ht
    rw [htasks] at ht'
    exact ⟨task', ht', hg, heq⟩

end expansion

/-! ### What a load has passed -/

theorem rejectFirst_eq_ok {offence : BatectShaped → Option String}
    {containers : List BatectShaped} :
    rejectFirst offence containers = .ok () ↔ ∀ entry ∈ containers, offence entry = none := by
  unfold rejectFirst
  cases hfind : containers.findSome? offence with
  | none => simpa using hfind
  | some message =>
      obtain ⟨entry, hentry, hoffence⟩ := List.exists_of_findSome?_eq_some hfind
      constructor
      · intro h
        cases h
      · intro h
        rw [h entry hentry] at hoffence
        cases hoffence

theorem firstSet_eq_none {fields : List (String × Bool)} :
    firstSet fields = none ↔ ∀ field ∈ fields, field.2 = false := by
  unfold firstSet
  rw [Option.map_eq_none_iff, List.find?_eq_none]
  simp

theorem rejectNativeFields_eq_ok {fields : Config.Container → List (String × Bool)}
    {containers : List BatectShaped} :
    rejectNativeFields fields containers = .ok () ↔
      ∀ entry ∈ containers, ∀ field ∈ fields entry.container, field.2 = false := by
  unfold rejectNativeFields rejectNative
  simp only [rejectFirst_eq_ok, Option.map_eq_none_iff, firstSet_eq_none]

section passed

variable {machine : Machine} {unicode : Char → Bool} {threePlaces : ℕ → String} {configFile : Path}
  {loaded : LoadedConfig}

/-- In Batect's format every container follows Batect's rules. -/
theorem batectShaped_of_compat (configFile : Path) (hformat : loaded.format = .compat)
    {name : String} {container : Config.Container}
    (h : (name, container) ∈ loaded.config.containers.entries) :
    ∃ entry ∈ loaded.batectShapedContainers configFile, entry.container = container := by
  unfold LoadedConfig.batectShapedContainers
  refine ⟨_, List.mem_map_of_mem (List.mem_filter.mpr ⟨h, ?_⟩), rfl⟩
  rw [hformat]
  cases loaded.containerOrigins.get? name with
  | none => rfl
  | some origin => rfl

/-- In Batect's format nothing is inherited and nothing generated. -/
theorem compat_declares (hformat : loaded.format = .compat)
    (h : rejectIncompatibleFields unicode configFile loaded = .ok ()) {name : String}
    {container : Config.Container} (hc : (name, container) ∈ loaded.config.containers.entries) :
    container.extendsName = none ∧ container.externalHealthCheck = none := by
  unfold rejectIncompatibleFields at h
  obtain ⟨⟨⟩, hextends, h⟩ := Except.bind_eq_ok.mp h
  obtain ⟨⟨⟩, -, h⟩ := Except.bind_eq_ok.mp h
  obtain ⟨⟨⟩, hcheck, -⟩ := Except.bind_eq_ok.mp h
  obtain ⟨entry, hentry, rfl⟩ := batectShaped_of_compat configFile hformat hc
  have hextends' := rejectNativeFields_eq_ok.mp hextends entry hentry
  have hcheck' := rejectNativeFields_eq_ok.mp hcheck entry hentry
  constructor
  · simpa using hextends'
  · simpa using hcheck'

/-- What an accepted project has passed on its way, from what was read to what is run. -/
structure Accepted (machine : Machine) (unicode : Char → Bool) (threePlaces : ℕ → String)
    (loaded : LoadedConfig) (inherited : Config) (project : LoadedProject) : Prop where
  values : checkValues machine unicode loaded.config loaded.provenance
    project.projectDirectory = .ok ()
  keys : inherited.containers.keys = loaded.config.containers.keys
  tasks : inherited.tasks = loaded.config.tasks
  inherits : ∀ name container, (name, container) ∈ inherited.containers.entries →
    Inherits loaded.config.containers name container (project.provenance.suppliersOf name)
  rules : checkProject inherited project.provenance = .ok ()
  expansion : Expansion threePlaces inherited project.config
  boundaries : project.provenance.boundaries = loaded.containerBoundaries
  basePaths : project.provenance.basePaths = loaded.containerBasePaths
  batectShaped : project.provenance.batectShaped = loaded.provenance.batectShaped

/-- What a container ends up with, in either format. -/
theorem inherited_ok (hreject : rejectIncompatibleFields unicode configFile loaded = .ok ())
    {containers : IndexMap String Config.Container} {suppliers : ResolvedContainers}
    (h : loaded.format.inherited loaded.config.containers = .ok (containers, suppliers)) :
    containers.keys = loaded.config.containers.keys ∧
      ∀ name container, (name, container) ∈ containers.entries →
        Inherits loaded.config.containers name container
          ({ loaded.provenance with suppliers := suppliers }.suppliersOf name) := by
  unfold ConfigFormat.inherited at h
  split at h
  · next hformat =>
      cases h
      refine ⟨rfl, fun name container hc => ?_⟩
      obtain ⟨hextends, -⟩ := compat_declares hformat hreject hc
      have hown := Inherits.own (IndexMap.get?_of_mem hc) hextends
      have hconsumed : container.consumed = container := by
        unfold Config.Container.consumed
        rw [← hextends]
      rw [hconsumed] at hown
      exact hown
  · split at h
    · next resolved hresolve =>
        cases h
        refine ⟨resolveExtends_keys hresolve, fun name container hc => ?_⟩
        obtain ⟨r, hr, -, hinherits⟩ := resolveExtends_ok hresolve (IndexMap.get?_of_mem hc)
        unfold Provenance.suppliersOf
        rw [hr]
        exact hinherits
    · cases h

/-- The expansion, in either format. -/
theorem expanded_ok (hreject : rejectIncompatibleFields unicode configFile loaded = .ok ())
    {containers : IndexMap String Config.Container} {suppliers : ResolvedContainers}
    (hinherited : loaded.format.inherited loaded.config.containers = .ok (containers, suppliers))
    {config : Config}
    (h : loaded.format.expanded threePlaces
      { loaded.config with containers := containers } = .ok config) :
    Expansion threePlaces { loaded.config with containers := containers } config := by
  unfold ConfigFormat.expanded at h
  split at h
  · next hformat =>
      cases h
      have hnone : ({ loaded.config with containers := containers } : Config).companions = [] := by
        rw [hformat] at hinherited
        cases hinherited
        unfold Config.companions
        rw [List.map_eq_nil_iff, List.filter_eq_nil_iff]
        rintro ⟨name, container⟩ hc
        rw [(compat_declares hformat hreject hc).2]
        simp
      refine ⟨?_, ?_, ?_⟩
      · intro name
        rw [hnone]
        simp
      · exact fun name container hc => ⟨container, Or.inl hc, Gains.refl _, rfl⟩
      · exact fun name task ht => ⟨task, ht, Gains.refl _, rfl⟩
  · exact expandExternalHealthChecks_ok h

theorem loadProjectImpl_ok {project : LoadedProject}
    (h : loadProjectImpl machine unicode threePlaces configFile loaded = .ok project) :
    ∃ inherited, Accepted machine unicode threePlaces loaded inherited project := by
  unfold loadProjectImpl at h
  obtain ⟨⟨⟩, hreject, h⟩ := Except.bind_eq_ok.mp h
  obtain ⟨⟨⟩, -, h⟩ := Except.bind_eq_ok.mp h
  obtain ⟨projectDirectory, -, h⟩ := Except.bind_eq_ok.mp h
  obtain ⟨⟨⟩, hvalues, h⟩ := Except.bind_eq_ok.mp h
  obtain ⟨⟨containers, suppliers⟩, hinherited, h⟩ := Except.bind_eq_ok.mp h
  obtain ⟨⟨⟩, hrules, h⟩ := Except.bind_eq_ok.mp h
  obtain ⟨config, hexpanded, h⟩ := Except.bind_eq_ok.mp h
  cases h
  obtain ⟨hkeys, hinherits⟩ := inherited_ok hreject hinherited
  exact ⟨{ loaded.config with containers := containers }, hvalues, hkeys, rfl, hinherits, hrules,
    expanded_ok hreject hinherited hexpanded, rfl, rfl, rfl⟩

end passed

end Ratect
