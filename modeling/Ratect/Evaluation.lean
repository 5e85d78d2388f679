import Ratect.HostPaths
import Ratect.Inheritance

/-! # Evaluating a loaded project

`LoadedProject::evaluate` (`config.rs`): the expressions of the containers and tasks that are asked
for are evaluated against this machine, and each host path is resolved against the file of the
container that supplied it and kept inside that container's boundary.  A failure is its message with
its causes; what a value holds when it fails is left as written. -/

namespace Ratect

open Paths (Path)

/-! ### Where containers came from -/

/-- `Provenance`: for each container the directory of its file, its boundary, whether its file is in
Batect's format, and who supplied its inherited fields. -/
structure Provenance where
  basePaths : IndexMap String Path
  boundaries : IndexMap String Boundary
  batectShaped : List String
  suppliers : ResolvedContainers

namespace Provenance

/-- `anchor`. -/
def anchor (provenance : Provenance) (supplier : String) (projectDirectory : Path) : Anchor where
  basePath := (provenance.basePaths.get? supplier).getD projectDirectory
  boundary := (provenance.boundaries.get? supplier).map fun boundary => (boundary, projectDirectory)
  batectShaped := supplier ∈ provenance.batectShaped

/-- `suppliers_of`. -/
def suppliersOf (provenance : Provenance) (container : String) : Suppliers :=
  ((provenance.suppliers.get? container).map (·.suppliers)).getD (.own container)

end Provenance

/-! ### Values -/

/-- `Container::image_is_expression`. -/
def imageIsExpression (batectShaped : Bool) : Bool := !batectShaped

/-- A value evaluated and stored, or left as written with why it could not be. -/
def storeOrRecord {α : Type} (target : α) : Except String α → α × List String
  | .ok value => (value, [])
  | .error error => (target, [error])

/-- Every element, and every failure in order. -/
def evaluateAll {α : Type} (f : α → α × List String) (values : List α) : List α × List String :=
  (values.map fun value => (f value).1, values.flatMap fun value => (f value).2)

/-- A field, if it is set. -/
def evaluateField {α : Type} (f : α → α × List String) : Option α → Option α × List String
  | none => (none, [])
  | some value => (some (f value).1, (f value).2)

/-- The built-in config variable. -/
def projectDirectoryVar : String := "batect.project_directory"

/-- `config_variable_values`: the values of the declared variables, and of the built-in one. -/
def configVariableValues (declared : Option (IndexMap String Config.ConfigVariable))
    (overrides : IndexMap String Text) (projectDirectory : Path) :
    Except String (List (String × Option Text)) :=
  let variablesOf := (declared.map IndexMap.entries).getD []
  match (overrides.keys.mergeSort (fun a b => decide (a ≤ b))).find? fun key =>
    key ∉ variablesOf.map Prod.fst with
  | some key => .error (s!"Config variable '{printableString key}' was given a value via " ++
      "--config-var/--config-vars-file, but isn't declared in 'config_variables'")
  | none => .ok ((projectDirectoryVar, some (Paths.toText projectDirectory)) ::
      variablesOf.map fun e => (e.1, (overrides.get? e.1).or e.2.default))

/-- The machine, and what the expressions are evaluated with. -/
structure Scope where
  machine : Machine
  unicode : Char → Bool
  hostEnv : Text → Option Text
  configVars : List (String × Option Text)

namespace Scope

/-- The value of a config variable, if it is declared. -/
def configVar (scope : Scope) (name : Text) : Option (Option Text) :=
  (scope.configVars.find? fun e => e.1.toList = name).map Prod.snd

/-- `evaluate_value`. -/
def evaluateValue (scope : Scope) (field : String) (value : Text) : Except String Text :=
  match Expressions.interpolate scope.unicode value scope.hostEnv scope.configVar with
  | .ok evaluated => .ok evaluated
  | .error cause =>
      .error s!"cannot evaluate {field} ('{String.ofList (printable value)}'): {cause}"

/-- `deferred_check_context`, before its cause. -/
def deferredCheck {α : Type} (field : String) (expression : Text) :
    Except String α → Except String α
  | .ok a => .ok a
  | .error cause => .error
      s!"{field} ('{String.ofList (printable expression)}') evaluates to a value that can't be used: {cause}"

/-- The closure `resolve` of `evaluate_container`: a host path that may hold an expression. -/
def resolvePath (scope : Scope) (field : String) (contained : HostPathField) (path : Text)
    (anchor : Anchor) :
    Except String Text := do
  let evaluated ← scope.evaluateValue field path
  let resolved ← deferredCheck field path (anchorPath scope.machine evaluated anchor contained)
  return Paths.toText resolved

/-- A host path that is used as written. -/
def resolveLiteral (scope : Scope) (path : Text) (anchor : Anchor) : Except String Text :=
  match anchorPath scope.machine path anchor .volumes with
  | .ok resolved => .ok (Paths.toText resolved)
  | .error cause =>
      .error s!"has an invalid 'volumes' entry '{String.ofList (printable path)}': {cause}"

/-- A value that is no host path. -/
def evaluateText (scope : Scope) (field : String) (value : Text) : Text × List String :=
  storeOrRecord value (scope.evaluateValue field value)

/-- The values of a map, each under its own field. -/
def evaluateEntry (scope : Scope) (field : String) (entry : String × Text) :
    (String × Text) × List String :=
  let evaluated := scope.evaluateText s!"'{field}.{printableString entry.1}'" entry.2
  ((entry.1, evaluated.1), evaluated.2)

/-- One `volumes` entry; only a local mount's host path is evaluated. -/
def evaluateVolume (scope : Scope) (anchor : Anchor) :
    Config.VolumeMount → Config.VolumeMount × List String
  | .host mount =>
      let resolved := storeOrRecord mount.host
        (if mount.localIsExpression anchor.batectShaped then
          scope.resolvePath "'volumes'" .volumes mount.host anchor
        else scope.resolveLiteral mount.host anchor)
      (.host { mount with host := resolved.1 }, resolved.2)
  | .cache mount => (.cache mount, [])
  | .tmpfs mount => (.tmpfs mount, [])

/-- One `build_secrets` entry; the name of an environment variable is no expression. -/
def evaluateSecret (scope : Scope) (anchor : Anchor) (entry : String × Config.BuildSecret) :
    (String × Config.BuildSecret) × List String :=
  match entry.2 with
  | .environment name => ((entry.1, .environment name), [])
  | .path path =>
      let resolved := storeOrRecord path
        (scope.resolvePath s!"'build_secrets.{printableString entry.1}'" .buildSecrets path anchor)
      ((entry.1, .path resolved.1), resolved.2)

/-- One `build_ssh` entry. -/
def evaluateAgent (scope : Scope) (anchor : Anchor) (agent : Config.SshAgent) :
    Config.SshAgent × List String :=
  let paths := evaluateAll (fun path => storeOrRecord path
    (scope.resolvePath s!"'build_ssh' entry '{printableString agent.id}'" .buildSsh path anchor))
      agent.paths
  ({ agent with paths := paths.1 }, paths.2)

/-- `build_directory`, as it is stored and as a message names it. -/
def evaluateBuildDirectory (scope : Scope) (anchor : Anchor) (path : Text) :
    (Text × Option String) × List String :=
  let resolved := scope.resolvePath "'build_directory'" .buildDirectory path anchor
  let inBundle := match resolved, anchor.boundary with
    | .ok text, some (boundary, _) => boundary.describeInCheckout (Paths.ofText text)
    | _, _ => none
  let stored := storeOrRecord path resolved
  ((stored.1, inBundle), stored.2)

/-- `identity.home`: a path inside the container. -/
def evaluateHome (scope : Scope) (home : Text) : Except String Text := do
  let value ← scope.evaluateValue "'identity.home'" home
  deferredCheck "'identity.home'" home (checkIdentityHome value)
  return value

end Scope

/-! ### Containers and tasks -/

/-- `evaluate_container`: the container, and every value that failed in field order. -/
def evaluateContainer (scope : Scope) (provenance : Provenance) (projectDirectory : Path)
    (name : String) (container : Config.Container) : Config.Container × List String :=
  let suppliers := provenance.suppliersOf name
  let anchor := fun supplier => provenance.anchor supplier projectDirectory
  let image := evaluateField (fun image =>
    if imageIsExpression (anchor suppliers.image).batectShaped then
      scope.evaluateText "'image'" image
    else (image, [])) container.image
  let environment :=
    evaluateField (evaluateAll (scope.evaluateEntry "environment")) container.environment
  let volumes :=
    evaluateField (evaluateAll (scope.evaluateVolume (anchor suppliers.volumes))) container.volumes
  let buildDirectory := container.buildDirectory.map
    (scope.evaluateBuildDirectory (anchor suppliers.buildDirectory))
  let buildArgs :=
    evaluateField (evaluateAll (scope.evaluateEntry "build_args")) container.buildArgs
  let buildSecrets :=
    evaluateField (evaluateAll (scope.evaluateSecret (anchor suppliers.buildSecrets)))
    container.buildSecrets
  let buildSsh := evaluateField (evaluateAll (scope.evaluateAgent (anchor suppliers.buildSsh)))
    container.buildSsh
  let identity := evaluateField (fun identity =>
    let home := storeOrRecord identity.home (scope.evaluateHome identity.home)
    ({ identity with home := home.1 }, home.2)) container.identity
  ({ container with
      image := image.1
      environment := environment.1
      volumes := volumes.1
      buildDirectory := buildDirectory.map fun b => b.1.1
      buildDirectoryInBundle :=
        (buildDirectory.bind fun b => b.1.2).or container.buildDirectoryInBundle
      buildArgs := buildArgs.1
      buildSecrets := buildSecrets.1
      buildSsh := buildSsh.1
      identity := identity.1 },
    image.2 ++ environment.2 ++ volumes.2 ++ (buildDirectory.map Prod.snd).getD [] ++ buildArgs.2 ++
      buildSecrets.2 ++ buildSsh.2 ++ identity.2)

/-- One customisation of a task. -/
def evaluateCustomisation (scope : Scope) (container : String)
    (customisation : Config.TaskContainerCustomisation) :
    Config.TaskContainerCustomisation × List String :=
  let environment := evaluateField
    (evaluateAll (scope.evaluateEntry s!"customise.{container}.environment"))
      customisation.environment
  ({ customisation with environment := environment.1 }, environment.2)

/-- `evaluate_task`. -/
def evaluateTask (scope : Scope) (task : Config.Task) : Config.Task × List String :=
  let run := evaluateField (fun run : Config.TaskRun =>
    let environment :=
      evaluateField (evaluateAll (scope.evaluateEntry "run.environment")) run.environment
    ({ run with environment := environment.1 }, environment.2)) task.run
  let customise :=
    evaluateField (fun customise : IndexMap String Config.TaskContainerCustomisation =>
    (customise.mapEntries fun name c => (evaluateCustomisation scope name c).1,
      customise.entries.flatMap fun e => (evaluateCustomisation scope e.1 e.2).2)) task.customise
  ({ task with run := run.1, customise := customise.1 }, run.2 ++ customise.2)

/-! ### The project -/

/-- `LoadedProject`: the configuration with every value as written, and where each container came
from. -/
structure LoadedProject where
  config : Config
  projectDirectory : Path
  format : ConfigFormat
  provenance : Provenance

/-- `Evaluated`. -/
structure Evaluated where
  containers : List (String × Config.Container)
  tasks : List (String × Config.Task)

/-- The names asked for in declaration order, each once; one that is not declared is refused, the
first by name. -/
def declaredOrder {V : Type} (kind : String) (declared : IndexMap String V) (names : List String) :
    Except String (List (String × V)) :=
  match ((names.filter (· ∉ declared.keys)).mergeSort (fun a b => decide (a ≤ b))).head? with
  | some name => .error s!"No {kind} named '{name}' is declared"
  | none => .ok (declared.entries.filter fun e => e.1 ∈ names)

/-- `LoadedProject::evaluate`: the first failure, or everything that was asked for. -/
def LoadedProject.evaluate (project : LoadedProject) (machine : Machine) (unicode : Char → Bool)
    (containers tasks : List String) (overrides : IndexMap String Text)
    (hostEnv : Text → Option Text) :
    Except String Evaluated := do
  let configVars ← configVariableValues project.config.configVariables overrides
    project.projectDirectory
  let scope : Scope := ⟨machine, unicode, hostEnv, configVars⟩
  let containers ← declaredOrder "container" project.config.containers containers
  let tasks ← declaredOrder "task" project.config.tasks tasks
  let evaluatedContainers := containers.map fun e =>
    (e.1, evaluateContainer scope project.provenance project.projectDirectory e.1 e.2)
  let evaluatedTasks := tasks.map fun e => (e.1, evaluateTask scope e.2)
  let failures :=
    (evaluatedContainers.flatMap fun e => e.2.2.map fun error => s!"Container '{e.1}': {error}") ++
    evaluatedTasks.flatMap fun e => e.2.2.map fun error => s!"Task '{e.1}': {error}"
  match failures with
  | first :: _ => .error first
  | [] =>
      return ⟨evaluatedContainers.map fun e => (e.1, e.2.1),
        evaluatedTasks.map fun e => (e.1, e.2.1)⟩

/-! ### What evaluation returns -/

theorem declaredOrder_ok {V : Type} {kind : String} {declared : IndexMap String V}
    {names : List String} {entries : List (String × V)}
    (h : declaredOrder kind declared names = .ok entries) :
    (∀ name ∈ names, name ∈ declared.keys) ∧
      entries = declared.entries.filter fun e => e.1 ∈ names := by
  unfold declaredOrder at h
  split at h
  · cases h
  · next hnone =>
      cases h
      refine ⟨?_, rfl⟩
      rw [List.head?_eq_none_iff] at hnone
      intro name hname
      by_contra hundeclared
      have hmem : name ∈ (names.filter (· ∉ declared.keys)).mergeSort (fun a b => decide (a ≤ b)) :=
        List.mem_mergeSort.mpr (List.mem_filter.mpr ⟨hname, by simpa using hundeclared⟩)
      rw [hnone] at hmem
      cases hmem

section evaluate

variable {project : LoadedProject} {machine : Machine} {unicode : Char → Bool}
    {containers tasks : List String} {overrides : IndexMap String Text}
    {hostEnv : Text → Option Text} {evaluated : Evaluated}

/-- What is asked for is declared, and all of it is evaluated without a failure. -/
theorem evaluate_ok
    (h : project.evaluate machine unicode containers tasks overrides hostEnv = .ok evaluated) :
    ∃ configVars,
      let scope : Scope := ⟨machine, unicode, hostEnv, configVars⟩
      let result := fun e : String × Config.Container =>
        evaluateContainer scope project.provenance project.projectDirectory e.1 e.2
      (∀ name ∈ containers, name ∈ project.config.containers.keys) ∧
      (∀ name ∈ tasks, name ∈ project.config.tasks.keys) ∧
      (∀ e ∈ project.config.containers.entries, e.1 ∈ containers → (result e).2 = []) ∧
      evaluated.containers = (project.config.containers.entries.filter fun e =>
        e.1 ∈ containers).map
        (fun e => (e.1, (result e).1)) ∧
      evaluated.tasks = (project.config.tasks.entries.filter fun e => e.1 ∈ tasks).map
        (fun e => (e.1, (evaluateTask scope e.2).1)) := by
  unfold LoadedProject.evaluate at h
  obtain ⟨configVars, -, h⟩ := Except.bind_eq_ok.mp h
  obtain ⟨declared, hdeclared, h⟩ := Except.bind_eq_ok.mp h
  obtain ⟨declaredTasks, htasks, h⟩ := Except.bind_eq_ok.mp h
  obtain ⟨hcontainers, rfl⟩ := declaredOrder_ok hdeclared
  obtain ⟨hnames, rfl⟩ := declaredOrder_ok htasks
  dsimp only at h
  split at h
  · cases h
  · next hfailures =>
      cases h
      refine ⟨configVars, hcontainers, hnames, ?_, by
        simp [Function.comp_def], by simp [Function.comp_def]⟩
      intro e he hasked
      have hnone := (List.append_eq_nil_iff.mp hfailures).1
      rw [List.flatMap_eq_nil_iff] at hnone
      have hmem : e ∈ project.config.containers.entries.filter fun e => e.1 ∈ containers := by
        simpa using ⟨he, hasked⟩
      exact List.map_eq_nil_iff.mp (hnone _ (List.mem_map_of_mem hmem))

/-- An evaluated container is what a declared one evaluates to, without a failure. -/
theorem evaluate_container
    (h : project.evaluate machine unicode containers tasks overrides hostEnv = .ok evaluated) :
    ∃ configVars, ∀ name container, (name, container) ∈ evaluated.containers →
      ∃ declared, (name, declared) ∈ project.config.containers.entries ∧
        let result := evaluateContainer ⟨machine, unicode, hostEnv, configVars⟩ project.provenance
          project.projectDirectory name declared
        container = result.1 ∧ result.2 = [] := by
  obtain ⟨configVars, -, -, hnone, hcontainers, -⟩ := evaluate_ok h
  refine ⟨configVars, ?_⟩
  intro name container hc
  rw [hcontainers] at hc
  obtain ⟨⟨name', declared⟩, hmem, heq⟩ := List.mem_map.mp hc
  cases heq
  obtain ⟨hdeclared, hasked⟩ := List.mem_filter.mp hmem
  exact ⟨declared, hdeclared, rfl, hnone _ hdeclared (by simpa using hasked)⟩

end evaluate

end Ratect
