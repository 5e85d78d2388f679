import Ratect.LoadMerge
import Ratect.ProjectLoad

/-! # Host paths stay inside their bundle

Whatever its expressions evaluate to, a host path that evaluation returns was resolved for the
container that supplied it and lies inside that container's boundary (`Anchored.confined`).  For a
project that was loaded, the supplier noted by inheritance is the nearest container on the chain of
`extends` that sets the field, and its boundary is that of the file which declares it
(`host_paths_confined`). -/

namespace Ratect

open Paths (Path)

/-- A host path that lies in a bundle's checkout or in the project directory. -/
def Confined (boundary : Boundary) (projectDirectory : Path) (text : Text) : Prop :=
  ∃ path, text = Paths.toText path ∧ Paths.clean path = path ∧
    (boundary.repoDir <+: path ∨ projectDirectory <+: path)

/-! ### Anchoring -/

section anchoring

variable {machine : Machine} {boundary : Boundary} {projectDirectory path : Path}

theorem resolveHostPath_clean {text : Text} {anchor : Anchor}
    (h : resolveHostPath machine text anchor = .ok path) : Paths.clean path = path := by
  unfold resolveHostPath at h
  split at h
  · cases h
  · split at h
    · cases h
    · cases h
      exact Paths.clean_clean _
    · split at h
      · cases h
        exact Paths.clean_clean _
      · split at h
        · cases h
        · cases h
          exact Paths.clean_clean _

/-- A path that passes is inside, unless the bundle is trusted with host paths. -/
theorem checkPathAllowed_inside {field : HostPathField}
    (htrust : boundary.bundle.trust.hostPaths = false)
    (h : boundary.checkPathAllowed machine path projectDirectory field = .ok ()) :
    boundary.inside projectDirectory (Paths.clean path) = true := by
  unfold Boundary.checkPathAllowed at h
  rw [htrust, if_neg (by simp)] at h
  split at h
  · cases h
  · next hinside => simpa using hinside

/-- A value that is the text of an anchored path. -/
def Anchored (machine : Machine) (anchor : Anchor) (value : Text) : Prop :=
  ∃ text field path, anchorPath machine text anchor field = .ok path ∧ value = Paths.toText path

/-- What is anchored is what the text resolves to, if the boundary allows it. -/
theorem anchorPath_ok {text : Text} {anchor : Anchor} {field : HostPathField}
    (h : anchorPath machine text anchor field = .ok path) :
    resolveHostPath machine text anchor = .ok path ∧
      ∀ b dir, anchor.boundary = some (b, dir) →
        b.checkPathAllowed machine path dir field = .ok () := by
  unfold anchorPath at h
  obtain ⟨resolved, hresolved, h⟩ := Except.bind_eq_ok.mp h
  cases hboundary : anchor.boundary with
  | none =>
      rw [hboundary] at h
      cases h
      exact ⟨hresolved, fun _ _ h => by cases h⟩
  | some b =>
      obtain ⟨b, dir⟩ := b
      rw [hboundary] at h
      obtain ⟨⟨⟩, hallowed, h⟩ := Except.bind_eq_ok.mp h
      cases h
      refine ⟨hresolved, ?_⟩
      rintro _ _ ⟨⟩
      exact hallowed

/-- Whatever the text is. -/
theorem Anchored.confined {anchor : Anchor} {value : Text} (h : Anchored machine anchor value)
    (hanchor : anchor.boundary = some (boundary, projectDirectory))
    (htrust : boundary.bundle.trust.hostPaths = false) :
    Confined boundary projectDirectory value := by
  obtain ⟨text, field, path, hpath, rfl⟩ := h
  obtain ⟨hresolved, hallowed⟩ := anchorPath_ok hpath
  have hclean := resolveHostPath_clean hresolved
  have hinside := checkPathAllowed_inside htrust (hallowed _ _ hanchor)
  rw [hclean, Boundary.inside, Bool.or_eq_true, Paths.startsWith_iff,
    Paths.startsWith_iff] at hinside
  exact ⟨path, rfl, hclean, hinside⟩

end anchoring

/-! ### Evaluation -/

section evaluation

variable {scope : Scope} {boundary : Boundary} {projectDirectory : Path} {anchor : Anchor}

theorem storeOrRecord_ok {α : Type} {target : α} {x : Except String α}
    (h : (storeOrRecord target x).2 = []) : x = .ok (storeOrRecord target x).1 := by
  cases x with
  | ok value => rfl
  | error error => cases h

theorem evaluateAll_mem {α : Type} {f : α → α × List String} {values : List α}
    (h : (evaluateAll f values).2 = []) {value : α} (hvalue : value ∈ (evaluateAll f values).1) :
    ∃ v ∈ values, value = (f v).1 ∧ (f v).2 = [] := by
  obtain ⟨v, hv, rfl⟩ := List.mem_map.mp hvalue
  exact ⟨v, hv, rfl, List.flatMap_eq_nil_iff.mp h v hv⟩

theorem evaluateField_some {α : Type} {f : α → α × List String} {field : Option α}
    (h : (evaluateField f field).2 = []) {value : α}
    (hvalue : (evaluateField f field).1 = some value) :
    ∃ v, field = some v ∧ value = (f v).1 ∧ (f v).2 = [] := by
  cases field with
  | none => cases hvalue
  | some v =>
      cases hvalue
      exact ⟨v, rfl, rfl, h⟩

theorem evaluateList_mem {α : Type} {f : α → α × List String} {field : Option (List α)}
    (h : (evaluateField (evaluateAll f) field).2 = []) {value : α}
    (hvalue : value ∈ (evaluateField (evaluateAll f) field).1.getD []) :
    ∃ values v, field = some values ∧ v ∈ values ∧ value = (f v).1 ∧ (f v).2 = [] := by
  cases hfield : (evaluateField (evaluateAll f) field).1 with
  | none =>
      rw [hfield] at hvalue
      cases hvalue
  | some values =>
      rw [hfield] at hvalue
      obtain ⟨vs, hvs, rfl, hnone⟩ := evaluateField_some h hfield
      obtain ⟨v, hv, hvalue, hnone⟩ := evaluateAll_mem hnone hvalue
      exact ⟨vs, v, hvs, hv, hvalue, hnone⟩

/-- A path that may hold an expression. -/
theorem resolvePath_anchored {field : String} {contained : HostPathField} {path value : Text}
    (h : scope.resolvePath field contained path anchor = .ok value) :
    Anchored scope.machine anchor value := by
  unfold Scope.resolvePath at h
  obtain ⟨evaluated, -, h⟩ := Except.bind_eq_ok.mp h
  obtain ⟨resolved, hresolved, h⟩ := Except.bind_eq_ok.mp h
  cases h
  unfold Scope.deferredCheck at hresolved
  split at hresolved
  · next hok =>
      cases hresolved
      exact ⟨_, _, _, hok, rfl⟩
  · cases hresolved

/-- A path that is used as written. -/
theorem resolveLiteral_anchored {path value : Text}
    (h : scope.resolveLiteral path anchor = .ok value) : Anchored scope.machine anchor value := by
  unfold Scope.resolveLiteral at h
  split at h
  · next hok =>
      cases h
      exact ⟨_, _, _, hok, rfl⟩
  · cases h

theorem evaluateVolume_anchored {volume : Config.VolumeMount}
    (h : (scope.evaluateVolume anchor volume).2 = []) {mount : Config.LocalVolumeMount}
    (hmount : (scope.evaluateVolume anchor volume).1 = .host mount) :
    Anchored scope.machine anchor mount.host := by
  cases volume with
  | host written =>
      simp only [Scope.evaluateVolume] at h hmount
      cases hmount
      have hanchored : ∀ value, (if written.localIsExpression anchor.batectShaped then
          scope.resolvePath "'volumes'" .volumes written.host anchor
        else scope.resolveLiteral written.host anchor) = .ok value →
          Anchored scope.machine anchor value := by
        intro value hvalue
        split at hvalue
        · exact resolvePath_anchored hvalue
        · exact resolveLiteral_anchored hvalue
      exact hanchored _ (storeOrRecord_ok h)
  | cache _ => cases hmount
  | tmpfs _ => cases hmount

theorem evaluateSecret_confined (hanchor : anchor.boundary = some (boundary, projectDirectory))
    (htrust : boundary.bundle.trust.hostPaths = false) {entry : String × Config.BuildSecret}
    (h : (scope.evaluateSecret anchor entry).2 = []) {key : String} {path : Text}
    (hpath : (scope.evaluateSecret anchor entry).1 = (key, .path path)) :
    Confined boundary projectDirectory path := by
  obtain ⟨key', secret⟩ := entry
  cases secret with
  | environment _ => cases hpath
  | path written =>
      cases hpath
      exact (resolvePath_anchored (storeOrRecord_ok h)).confined hanchor htrust

theorem evaluateAgent_confined (hanchor : anchor.boundary = some (boundary, projectDirectory))
    (htrust : boundary.bundle.trust.hostPaths = false) {agent : Config.SshAgent}
    (h : (scope.evaluateAgent anchor agent).2 = []) {path : Text}
    (hpath : path ∈ (scope.evaluateAgent anchor agent).1.paths) :
    Confined boundary projectDirectory path := by
  obtain ⟨written, -, rfl, hnone⟩ := evaluateAll_mem h hpath
  exact (resolvePath_anchored (storeOrRecord_ok hnone)).confined hanchor htrust

theorem evaluateBuildDirectory_confined
    (hanchor : anchor.boundary = some (boundary, projectDirectory))
    (htrust : boundary.bundle.trust.hostPaths = false) {path : Text}
    (h : (scope.evaluateBuildDirectory anchor path).2 = []) :
    Confined boundary projectDirectory (scope.evaluateBuildDirectory anchor path).1.1 :=
  (resolvePath_anchored (storeOrRecord_ok h)).confined hanchor htrust

/-- The host paths of a container are confined, each by the boundary of its own supplier. -/
structure PathsConfined (provenance : Provenance) (projectDirectory : Path) (suppliers : Suppliers)
    (container : Config.Container) : Prop where
  volumes : ∀ boundary, provenance.boundaries.get? suppliers.volumes = some boundary →
    boundary.bundle.trust.hostPaths = false → ∀ mount, .host mount ∈ container.volumes.getD [] →
      Confined boundary projectDirectory mount.host
  buildDirectory : ∀ boundary, provenance.boundaries.get? suppliers.buildDirectory = some boundary →
    boundary.bundle.trust.hostPaths = false → ∀ path, container.buildDirectory = some path →
      Confined boundary projectDirectory path
  buildSecrets : ∀ boundary, provenance.boundaries.get? suppliers.buildSecrets = some boundary →
    boundary.bundle.trust.hostPaths = false → ∀ key path,
      (key, .path path) ∈ container.buildSecrets.getD [] →
      Confined boundary projectDirectory path
  buildSsh : ∀ boundary, provenance.boundaries.get? suppliers.buildSsh = some boundary →
    boundary.bundle.trust.hostPaths = false → ∀ agent ∈ container.buildSsh.getD [],
      ∀ path ∈ agent.paths,
      Confined boundary projectDirectory path

theorem anchor_boundary {provenance : Provenance} {supplier : String}
    (h : provenance.boundaries.get? supplier = some boundary) :
    (provenance.anchor supplier projectDirectory).boundary = some (boundary, projectDirectory) := by
  unfold Provenance.anchor
  rw [h]
  rfl

/-- Each volume of a container that evaluates without a failure is an evaluated one of its
volumes. -/
theorem evaluateContainer_volume {provenance : Provenance} {name : String}
    {container : Config.Container}
    (h : (evaluateContainer scope provenance projectDirectory name container).2 = [])
    {volume : Config.VolumeMount}
    (hvolume : volume ∈ (evaluateContainer scope provenance projectDirectory name
      container).1.volumes.getD []) :
    ∃ written ∈ container.volumes.getD [],
      volume = (scope.evaluateVolume
        (provenance.anchor (provenance.suppliersOf name).volumes projectDirectory)
        written).1 ∧
      (scope.evaluateVolume (provenance.anchor (provenance.suppliersOf name).volumes
        projectDirectory) written).2 =
        [] := by
  unfold evaluateContainer at h
  simp only [List.append_eq_nil_iff] at h
  obtain ⟨⟨⟨⟨⟨⟨⟨-, -⟩, hvolumes⟩, -⟩, -⟩, -⟩, -⟩, -⟩ := h
  obtain ⟨values, written, hvalues, hwritten, heq, hnone⟩ := evaluateList_mem hvolumes hvolume
  refine ⟨written, ?_, heq, hnone⟩
  rw [hvalues]
  exact hwritten

/-- A container that evaluates without a failure. -/
theorem evaluateContainer_confined {provenance : Provenance} {name : String}
    {container : Config.Container}
    (h : (evaluateContainer scope provenance projectDirectory name container).2 = []) :
    PathsConfined provenance projectDirectory (provenance.suppliersOf name)
      (evaluateContainer scope provenance projectDirectory name container).1 := by
  have hvolume := @evaluateContainer_volume scope projectDirectory provenance name container h
  unfold evaluateContainer at h
  simp only [List.append_eq_nil_iff] at h
  obtain ⟨⟨⟨⟨⟨⟨⟨-, -⟩, -⟩, hdirectory⟩, -⟩, hsecrets⟩, hssh⟩, -⟩ := h
  refine ⟨?_, ?_, ?_, ?_⟩
  · intro boundary hboundary htrust mount hmount
    obtain ⟨written, -, heq, hnone⟩ := hvolume hmount
    exact (evaluateVolume_anchored hnone heq.symm).confined (anchor_boundary hboundary) htrust
  · intro boundary hboundary htrust path hpath
    obtain ⟨evaluated, hevaluated, rfl⟩ := Option.map_eq_some_iff.mp hpath
    obtain ⟨written, -, rfl⟩ := Option.map_eq_some_iff.mp hevaluated
    rw [hevaluated] at hdirectory
    exact evaluateBuildDirectory_confined (anchor_boundary hboundary) htrust hdirectory
  · intro boundary hboundary htrust key path hpath
    obtain ⟨-, entry, -, -, hentry, hnone⟩ := evaluateList_mem hsecrets hpath
    exact evaluateSecret_confined (anchor_boundary hboundary) htrust hnone hentry.symm
  · intro boundary hboundary htrust agent hagent path hpath
    obtain ⟨-, written, -, -, rfl, hnone⟩ := evaluateList_mem hssh hagent
    exact evaluateAgent_confined (anchor_boundary hboundary) htrust hnone hpath

end evaluation

/-! ### Projects -/

section projects

variable {machine : Machine} {unicode : Char → Bool} {threePlaces : ℕ → String}
    {format : ConfigFormat} {running : Option String} {configFile : Path} {loaded : LoadedConfig}
    {project : LoadedProject}

/-- A project as it is loaded from its file: what the files hold, and what `load_project_impl` makes
of it. -/
structure LoadsProject (machine : Machine) (unicode : Char → Bool) (threePlaces : ℕ → String)
    (format : ConfigFormat) (running : Option String) (configFile : Path) (loaded : LoadedConfig)
    (project : LoadedProject) : Prop where
  read : ∃ rounds, loadFromFile machine format running rounds configFile = some (.ok loaded)
  accepted : loadProjectImpl machine unicode threePlaces configFile loaded = .ok project

/-- Every path that evaluation returns of a container is confined by the boundaries of the suppliers
that inheritance noted. -/
theorem evaluated_confined {machine' : Machine} {containers tasks : List String}
    {overrides : IndexMap String Text} {hostEnv : Text → Option Text} {evaluated : Evaluated}
    (h : project.evaluate machine' unicode containers tasks overrides hostEnv = .ok evaluated)
    {name : String} {container : Config.Container} (hc : (name, container) ∈ evaluated.containers) :
    PathsConfined project.provenance project.projectDirectory
      (project.provenance.suppliersOf name) container := by
  obtain ⟨configVars, hcontainers⟩ := evaluate_container h
  obtain ⟨declared, -, rfl, hnone⟩ := hcontainers name container hc
  exact evaluateContainer_confined hnone

/-- A container that is declared and evaluated inherits from the suppliers that were noted, unless
it was generated, and then it has no host path. -/
theorem Accepted.inherits_or_generated {inherited : Config}
    (h : Accepted machine unicode threePlaces loaded inherited project) {machine' : Machine}
    {containers tasks : List String} {overrides : IndexMap String Text}
    {hostEnv : Text → Option Text} {evaluated : Evaluated}
    (heval : project.evaluate machine' unicode containers tasks overrides hostEnv = .ok evaluated)
    {name : String} {container : Config.Container} (hc : (name, container) ∈ evaluated.containers) :
    (∃ container', Inherits loaded.config.containers name container'
      (project.provenance.suppliersOf name)) ∨
      (container.volumes = none ∧ container.buildDirectory = none ∧ container.buildSecrets = none ∧
        container.buildSsh = none) := by
  obtain ⟨configVars, hcontainers⟩ := evaluate_container heval
  obtain ⟨declared, hdeclared, rfl, -⟩ := hcontainers name container hc
  obtain ⟨container', hcontainer', -, hsame⟩ := h.expansion.containers name declared hdeclared
  rcases hcontainer' with hcontainer' | ⟨_, _, -, -, hcompanion⟩
  · exact Or.inl ⟨container', h.inherits name container' hcontainer'⟩
  · rw [hcompanion] at hsame
    rw [hsame]
    exact Or.inr ⟨rfl, rfl, rfl, rfl⟩

/-- **Host paths stay inside the bundle that supplied them.**  In every project that loads, whatever
machine and environment it is evaluated against and whatever its config variables are set to: each
host path that evaluation returns, supplied by a container of a Git-included file which is not
trusted with host paths, lies in the checkout of that file's bundle or in the project directory. -/
theorem host_paths_confined
    (hload : LoadsProject machine unicode threePlaces format running configFile loaded project)
    {machine' : Machine} {containers tasks : List String} {overrides : IndexMap String Text}
    {hostEnv : Text → Option Text} {evaluated : Evaluated}
    (heval : project.evaluate machine' unicode containers tasks overrides hostEnv = .ok evaluated)
    {name : String} {container : Config.Container} (hc : (name, container) ∈ evaluated.containers)
    {file : LoadedFile} (hfile : file ∈ loaded.files) {boundary : Boundary}
    (hboundary : file.boundary = some boundary) (htrust : boundary.bundle.trust.hostPaths = false)
    {supplier : String} (hsupplier : supplier ∈ file.file.containers.keys) :
    (Supplies loaded.config.containers (·.volumes) name supplier →
      ∀ mount, .host mount ∈ container.volumes.getD [] →
        Confined boundary project.projectDirectory mount.host) ∧
    (Supplies loaded.config.containers (·.buildDirectory) name supplier →
      ∀ path, container.buildDirectory = some path →
        Confined boundary project.projectDirectory path) ∧
    (Supplies loaded.config.containers (·.buildSecrets) name supplier →
      ∀ key path, (key, .path path) ∈ container.buildSecrets.getD [] →
        Confined boundary project.projectDirectory path) ∧
    (Supplies loaded.config.containers (·.buildSsh) name supplier →
      ∀ agent ∈ container.buildSsh.getD [], ∀ path ∈ agent.paths,
        Confined boundary project.projectDirectory path) := by
  obtain ⟨rounds, hread⟩ := hload.read
  obtain ⟨inherited, haccepted⟩ := loadProjectImpl_ok hload.accepted
  have hconfined := evaluated_confined heval hc
  rcases haccepted.inherits_or_generated heval hc with ⟨container', hinherits⟩ | ⟨hv, hd, hs, ha⟩
  · have hget : project.provenance.boundaries.get? supplier = some boundary := by
      rw [haccepted.boundaries,
        ((loadFromFile_merge hread).origins file hfile supplier hsupplier).2.2]
      exact hboundary
    refine ⟨?_, ?_, ?_, ?_⟩
    · intro hsupplies
      rw [← hinherits.noted (·.volumes) (fun _ => rfl) (fun _ _ _ => rfl) hsupplies] at hget
      exact hconfined.volumes boundary hget htrust
    · intro hsupplies
      rw [← hinherits.noted (·.buildDirectory) (fun _ => rfl) (fun _ _ _ => rfl) hsupplies] at hget
      exact hconfined.buildDirectory boundary hget htrust
    · intro hsupplies
      rw [← hinherits.noted (·.buildSecrets) (fun _ => rfl) (fun _ _ _ => rfl) hsupplies] at hget
      exact hconfined.buildSecrets boundary hget htrust
    · intro hsupplies
      rw [← hinherits.noted (·.buildSsh) (fun _ => rfl) (fun _ _ _ => rfl) hsupplies] at hget
      exact hconfined.buildSsh boundary hget htrust
  · rw [hv, hd, hs, ha]
    simp

/-- A project whose own container extends one of a bundle, with the bundle's host paths from the
environment. -/
def extendingProject : Machine :=
  Machine.inMemory (Paths.ofText ['/', 'p']) (Paths.ofText ['/', 'h'])
    [ (Paths.ofText "/p/ratect.toml".toList,
        { projectName := some "p"
          containers := .single "app" { extendsName := some "base" }
          includes := [.git ⟨"a"⟩ "1" none false none none] }),
      (Paths.ofText "/c/a/ratect-bundle.toml".toList,
        { containers := .single "base"
            { image := some "alpine".toList
              volumes := some [.host ⟨"$DIR/data".toList, "/data".toList, none, false⟩] } }) ]
    [((⟨"a"⟩, "1"), Paths.ofText "/c/a".toList)]

/-- The host paths of a container's volumes. -/
def localPaths (container : Config.Container) : List Text :=
  (container.volumes.getD []).filterMap fun
    | .host mount => some mount.host
    | _ => none

/-- A container of the bundle's own file supplies the volumes of the project's container. -/
def suppliedByBundle (loaded : LoadedConfig) : Bool :=
  ((loaded.config.containers.get? "app").any fun app =>
    app.volumes.isNone && decide (app.extendsName = some "base")) &&
  ((loaded.config.containers.get? "base").any fun base => base.volumes.isSome) &&
  loaded.files.any fun file => decide ("base" ∈ file.file.containers.keys) &&
    file.boundary.any fun boundary =>
      decide (boundary.repoDir = Paths.ofText "/c/a".toList) && !boundary.bundle.trust.hostPaths

theorem supplies_of_suppliedByBundle {loaded : LoadedConfig} (h : suppliedByBundle loaded = true) :
    Supplies loaded.config.containers (·.volumes) "app" "base" ∧
      ∃ file ∈ loaded.files,
        "base" ∈ file.file.containers.keys ∧ ∃ boundary, file.boundary = some boundary ∧
        boundary.repoDir = Paths.ofText "/c/a".toList ∧
          boundary.bundle.trust.hostPaths = false := by
  unfold suppliedByBundle at h
  simp only [Bool.and_eq_true, Option.any_eq_true, List.any_eq_true,
    decide_eq_true_eq, Bool.not_eq_true', Option.isNone_iff_eq_none] at h
  obtain ⟨⟨⟨app, happ, hunset, hextends⟩, base, hbase, hset⟩, file, hfile, hkey,
    boundary, hboundary, hrepo,
    htrust⟩ := h
  exact ⟨.inherited happ hunset hextends (.own hbase hset), file, hfile, hkey, boundary,
    hboundary, hrepo, htrust⟩

/-- The variable leads out of the checkout and back in. -/
theorem host_paths_confined_inherited : ∃ loaded project evaluated container mount boundary,
    LoadsProject extendingProject (fun _ => false) (fun _ => "") .native none
        (Paths.ofText "/p/ratect.toml".toList) loaded project ∧
      project.evaluate extendingProject (fun _ => false) ["app"] [] .empty
        (fun _ => some "../a/x".toList) =
        .ok evaluated ∧
      ("app", container) ∈ evaluated.containers ∧ .host mount ∈ container.volumes.getD [] ∧
      mount.host = "/c/a/x/data".toList ∧ boundary.repoDir = Paths.ofText "/c/a".toList ∧
      Confined boundary project.projectDirectory mount.host := by
  have hrun : Loop.succeeds (fun loaded => suppliedByBundle loaded &&
      (loadProjectImpl extendingProject (fun _ => false) (fun _ => "")
        (Paths.ofText "/p/ratect.toml".toList)
          loaded).passes fun project =>
        (project.evaluate extendingProject (fun _ => false) ["app"] [] .empty
            (fun _ => some "../a/x".toList)).passes fun evaluated =>
          evaluated.containers.any fun e =>
            decide (e.1 = "app" ∧ "/c/a/x/data".toList ∈ localPaths e.2))
      (loadFromFile extendingProject .native none 10 (Paths.ofText "/p/ratect.toml".toList)) =
        true := by
    decide +kernel
  obtain ⟨loaded, hloaded, htest⟩ := Loop.exists_of_succeeds hrun
  rw [Bool.and_eq_true] at htest
  obtain ⟨hsupplies, file, hfile, hkey, boundary, hboundary, hrepo, htrust⟩ :=
    supplies_of_suppliedByBundle htest.1
  obtain ⟨project, hproject, htest⟩ := Except.exists_of_passes htest.2
  obtain ⟨evaluated, hevaluated, htest⟩ := Except.exists_of_passes htest
  obtain ⟨⟨name, container⟩, hc, htest⟩ := List.any_eq_true.mp htest
  obtain ⟨rfl, hpath⟩ := of_decide_eq_true htest
  obtain ⟨volume, hvolume, hmount⟩ := List.mem_filterMap.mp hpath
  cases volume with
  | host mount =>
      have hload : LoadsProject extendingProject (fun _ => false) (fun _ => "") .native none
          (Paths.ofText "/p/ratect.toml".toList) loaded project := ⟨⟨10, hloaded⟩, hproject⟩
      exact ⟨loaded, project, evaluated, container, mount, boundary, hload, hevaluated, hc, hvolume,
        Option.some.inj hmount, hrepo,
        (host_paths_confined hload hevaluated hc hfile hboundary htrust hkey).1
          hsupplies mount hvolume⟩
  | cache _ => cases hmount
  | tmpfs _ => cases hmount

end projects

end Ratect
