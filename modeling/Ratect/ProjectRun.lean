import Ratect.Execution
import Ratect.ProjectLoad

/-! # What the engine is given

A project that was accepted is sound (`Config.Sound`): whatever it refers to is declared, setup
commands and shared networks name dependencies, and whoever runs as the current user has a home.  So
when a task runs, the containers it evaluates are closed under dependencies and none of the engine's
branches for a configuration that should have been refused is taken (`engine_input_sound`). -/

namespace Ratect

open Paths (Path)

/-! ### Sound projects -/

/-- What the engine takes for granted of a project. -/
structure Config.Sound (config : Config) : Prop where
  dependencies : ∀ name container, (name, container) ∈ config.containers.entries →
    ∀ d ∈ container.dependsOn, d ∈ config.containers.keys
  references : ∀ name task, (name, task) ∈ config.tasks.entries →
    ∀ d ∈ task.refersTo, d ∈ config.containers.keys
  setup : ∀ name container, (name, container) ∈ config.containers.entries →
    ∀ command ∈ container.setupCommands.getD [], ∀ target, command.runIn = some target →
      target = name ∨ target ∈ container.dependsOn
  network : ∀ name container, (name, container) ∈ config.containers.entries →
    ∀ target, container.networkMode = some (.container target) → target ∈ container.dependsOn
  home : ∀ name container, (name, container) ∈ config.containers.entries →
    ∀ user, container.runAsCurrentUser = some user → user.enabled = true →
      user.homeDirectory.isSome = true

section rules

variable {config : Config}

theorem rejectReferences_ok (h : rejectReferencesToUndeclaredContainers config = .ok ()) :
    (∀ name container, (name, container) ∈ config.containers.entries →
      ∀ d ∈ container.dependsOn, d ∈ config.containers.keys ∨ d ∈ config.companions) ∧
    ∀ name task, (name, task) ∈ config.tasks.entries →
      ∀ d ∈ task.refersTo, d ∈ config.containers.keys ∨ d ∈ config.companions := by
  unfold rejectReferencesToUndeclaredContainers at h
  obtain ⟨⟨⟩, hcontainers, htasks⟩ := Except.bind_eq_ok.mp h
  simp only [Except.forM_eq_ok, Except.ensure_eq_ok] at hcontainers htasks
  exact ⟨fun name container hc d hd => hcontainers (name, container) hc d hd,
    fun name task ht d hd => htasks (name, task) ht d hd⟩

theorem validateSetupCommandTargets_ok (h : validateSetupCommandTargets config = .ok ())
    {name : String} {container : Config.Container}
    (hc : (name, container) ∈ config.containers.entries) {command : SetupCommand}
    (hcommand : command ∈ container.setupCommands.getD []) {target : String}
    (htarget : command.runIn = some target) : target = name ∨ target ∈ container.dependsOn := by
  unfold validateSetupCommandTargets at h
  simp only [Except.forM_eq_ok] at h
  have hvalid := h (name, container) hc command hcommand
  unfold validateSetupCommand at hvalid
  rw [htarget] at hvalid
  dsimp only at hvalid
  split at hvalid
  · next heq => exact Or.inl heq
  · obtain ⟨⟨⟩, hdependency, -⟩ := Except.bind_eq_ok.mp hvalid
    exact Or.inr (Except.ensure_eq_ok.mp hdependency)

theorem validateNetworkModes_ok (h : validateNetworkModes config = .ok ()) {name : String}
    {container : Config.Container} (hc : (name, container) ∈ config.containers.entries)
    {target : String} (htarget : container.networkMode = some (.container target)) :
    target ∈ container.dependsOn := by
  unfold validateNetworkModes at h
  obtain ⟨⟨⟩, hmodes, -⟩ := Except.bind_eq_ok.mp h
  have hvalid := Except.forM_eq_ok.mp hmodes (name, container) hc
  unfold validateNetworkMode at hvalid
  rw [htarget] at hvalid
  unfold validateSharedNetwork at hvalid
  obtain ⟨_, -, hvalid⟩ := Except.bind_eq_ok.mp hvalid
  obtain ⟨⟨⟩, hdependency, -⟩ := Except.bind_eq_ok.mp hvalid
  exact Except.ensure_eq_ok.mp hdependency

theorem checkRunAsCurrentUser_ok {user : Config.RunAsCurrentUser}
    (h : checkRunAsCurrentUser user = .ok ()) (henabled : user.enabled = true) :
    user.homeDirectory.isSome = true := by
  unfold checkRunAsCurrentUser at h
  rw [henabled] at h
  cases hhome : user.homeDirectory with
  | none =>
      rw [hhome] at h
      cases h
  | some home => rfl

theorem checkValues_home {machine : Machine} {unicode : Char → Bool} {provenance : Provenance}
    {projectDirectory : Path}
    (h : checkValues machine unicode config provenance projectDirectory = .ok ()) {name : String}
    {container : Config.Container} (hc : (name, container) ∈ config.containers.entries)
    {user : Config.RunAsCurrentUser} (huser : container.runAsCurrentUser = some user)
    (henabled : user.enabled = true) : user.homeDirectory.isSome = true := by
  unfold checkValues at h
  obtain ⟨⟨⟩, hcontainers, -⟩ := Except.bind_eq_ok.mp h
  have hcontainer :=
    Except.withContext_eq_ok.mp (Except.forM_eq_ok.mp hcontainers (name, container) hc)
  unfold checkContainer at hcontainer
  simp only [Except.bind_eq_ok] at hcontainer
  obtain ⟨_, -, _, -, _, -, _, -, _, -, _, -, _, -, ⟨⟩, hcheck, -⟩ := hcontainer
  rw [huser] at hcheck
  exact checkRunAsCurrentUser_ok hcheck henabled

end rules

/-- Every accepted project is sound. -/
theorem Accepted.sound {machine : Machine} {unicode : Char → Bool} {threePlaces : ℕ → String}
    {loaded : LoadedConfig} {inherited : Config} {project : LoadedProject}
    (h : Accepted machine unicode threePlaces loaded inherited project) : project.config.Sound := by
  have hrules := h.rules
  unfold checkProject at hrules
  simp only [Except.bind_eq_ok] at hrules
  obtain ⟨⟨⟩, hreferences, _, -, _, -, _, -, _, -, ⟨⟩, hsetup, ⟨⟩, hnetwork, -⟩ := hrules
  obtain ⟨hdependencies, htasks⟩ := rejectReferences_ok hreferences
  have hkeys : ∀ d, d ∈ inherited.containers.keys ∨ d ∈ inherited.companions →
      d ∈ project.config.containers.keys :=
    fun d hd => (h.expansion.keys d).mpr hd
  refine ⟨?_, ?_, ?_, ?_, ?_⟩
  · intro name container hc d hd
    obtain ⟨container', hfrom, hgains, -⟩ := h.expansion.containers name container hc
    rcases hgains.mem hd with hd | hd
    · rcases hfrom with hfrom | ⟨checked, check, hchecked, -, rfl⟩
      · exact hkeys d (hdependencies name container' hfrom d hd)
      · rw [List.mem_singleton.mp hd]
        exact hkeys checked (Or.inl hchecked)
    · exact hkeys d (Or.inr hd)
  · intro name task ht d hd
    obtain ⟨task', ht', hgains, hsame⟩ := h.expansion.tasks name task ht
    rcases List.mem_append.mp hd with hd | hd
    · rw [hsame] at hd
      exact hkeys d (htasks name task' ht' d (List.mem_append_left _ hd))
    · rcases hgains.mem hd with hd | hd
      · exact hkeys d (htasks name task' ht' d (List.mem_append_right _ hd))
      · exact hkeys d (Or.inr hd)
  · intro name container hc command hcommand target htarget
    obtain ⟨container', hfrom, hgains, hsame⟩ := h.expansion.containers name container hc
    rw [hsame] at hcommand
    rcases hfrom with hfrom | ⟨checked, check, -, -, rfl⟩
    · exact (validateSetupCommandTargets_ok hsetup hfrom hcommand htarget).imp_right
        (hgains.subset ·)
    · cases hcommand
  · intro name container hc target htarget
    obtain ⟨container', hfrom, hgains, hsame⟩ := h.expansion.containers name container hc
    rw [hsame] at htarget
    rcases hfrom with hfrom | ⟨checked, check, -, -, rfl⟩
    · exact hgains.subset (validateNetworkModes_ok hnetwork hfrom htarget)
    · cases htarget
  · intro name container hc user huser henabled
    obtain ⟨container', hfrom, -, hsame⟩ := h.expansion.containers name container hc
    rw [hsame] at huser
    rcases hfrom with hfrom | ⟨checked, check, -, -, rfl⟩
    · obtain ⟨declared, hdeclared, hsupplied⟩ :=
        (h.inherits name container' hfrom).supplied.runAsCurrentUser
      exact checkValues_home h.values (IndexMap.mem_entries_of_get? hdeclared)
        (hsupplied.symm.trans huser)
        henabled
    · cases huser

/-! ### The containers of a task -/

section names

variable (containers : IndexMap String Config.Container)

/-- What a name depends on; nothing if it is not declared. -/
def dependenciesOfName (name : String) : List String :=
  ((containers.get? name).map Config.Container.dependsOn).getD []

/-- The dependencies that the walk may still push. -/
def unpushed (entries : List (String × Config.Container)) (names : List String) : List String :=
  (entries.filter fun e => e.1 ∉ names).flatMap fun e => e.2.dependsOn

variable {containers}

theorem unpushed_le (entries : List (String × Config.Container)) (names : List String)
    (name : String) :
    (unpushed entries (names ++ [name])).length ≤ (unpushed entries names).length := by
  apply List.Sublist.length_le
  apply List.Sublist.flatMap
  apply List.monotone_filter_right
  intro e he
  simp only [List.mem_append, not_or, decide_eq_true_eq] at he ⊢
  exact he.1

/-- A declared container's dependencies are pushed once. -/
theorem unpushed_lt {entries : List (String × Config.Container)} {names : List String}
    {name : String} {container : Config.Container} (hmem : (name, container) ∈ entries)
    (hname : name ∉ names) :
    (unpushed entries (names ++ [name])).length + container.dependsOn.length ≤
      (unpushed entries names).length := by
  induction entries with
  | nil => cases hmem
  | cons e entries ih =>
      have hcons : ∀ names, unpushed (e :: entries) names =
          (if e.1 ∈ names then [] else e.2.dependsOn) ++ unpushed entries names := by
        intro names
        unfold unpushed
        by_cases he : e.1 ∈ names
        · simp [he]
        · simp [he]
      rw [hcons, hcons, List.length_append, List.length_append]
      rcases List.mem_cons.mp hmem with rfl | hmem
      · have hle := unpushed_le entries names name
        simp only [List.mem_append, List.mem_singleton, or_true, if_true,
          if_neg hname, List.length_nil]
        omega
      · have hle := ih hmem
        have hhead : (if e.1 ∈ names ++ [name] then [] else e.2.dependsOn).length ≤
            (if e.1 ∈ names then [] else e.2.dependsOn).length := by
          by_cases he : e.1 ∈ names
          · simp [he]
          · by_cases hen : e.1 = name
            · simp [hen]
            · simp [he, hen]
        omega

/-- The walk with rounds to spare: it keeps what it found and empties the stack, and what it found
is closed under dependencies. -/
theorem namesInTaskFrom_closed (rounds : ℕ) (stack names : List String)
    (hrounds : stack.length + (unpushed containers.entries names).length < rounds)
    (hclosed : ∀ n ∈ names, ∀ d ∈ dependenciesOfName containers n, d ∈ names ∨ d ∈ stack) :
    let found := namesInTaskFrom containers rounds stack names
    names ⊆ found ∧ stack ⊆ found ∧ ∀ n ∈ found, dependenciesOfName containers n ⊆ found := by
  induction rounds generalizing stack names with
  | zero => omega
  | succ rounds ih =>
      cases stack with
      | nil =>
          refine ⟨List.Subset.refl _, List.nil_subset _, fun n hn d hd => ?_⟩
          rcases hclosed n hn d hd with h | h
          · exact h
          · cases h
      | cons name stack =>
          rw [namesInTaskFrom]
          split
          · next hseen =>
              rw [List.length_cons] at hrounds
              obtain ⟨hnames, hstack, hfound⟩ := ih stack names (by omega) (by
                intro n hn d hd
                rcases hclosed n hn d hd with h | h
                · exact Or.inl h
                · rcases List.mem_cons.mp h with rfl | h
                  · exact Or.inl hseen
                  · exact Or.inr h)
              exact ⟨hnames, List.cons_subset.mpr ⟨hnames hseen, hstack⟩, hfound⟩
          · next hnew =>
              have hpushed : (unpushed containers.entries (names ++ [name])).length +
                  (dependenciesOfName containers name).length ≤
                    (unpushed containers.entries names).length := by
                unfold dependenciesOfName
                cases hget : containers.get? name with
                | none => exact unpushed_le _ _ _
                | some container => exact unpushed_lt (IndexMap.mem_entries_of_get? hget) hnew
              have hlength : ((dependenciesOfName containers name).reverse.append stack).length =
                  (dependenciesOfName containers name).length + stack.length := by simp
              rw [List.length_cons] at hrounds
              obtain ⟨hnames, hstack, hfound⟩ := ih
                ((dependenciesOfName containers name).reverse.append stack) (names ++ [name])
                (by omega) (by
                  intro n hn d hd
                  rcases List.mem_append.mp hn with hn | hn
                  · rcases hclosed n hn d hd with h | h
                    · exact Or.inl (List.mem_append_left _ h)
                    · rcases List.mem_cons.mp h with rfl | h
                      · exact Or.inl (List.mem_append_right _ List.mem_cons_self)
                      · exact Or.inr (List.mem_append_right _ h)
                  · rw [List.mem_singleton.mp hn] at hd
                    exact Or.inr (List.mem_append_left _ (List.mem_reverse.mpr hd)))
              obtain ⟨hnames, hname⟩ := List.append_subset.mp hnames
              refine ⟨hnames, List.cons_subset.mpr ⟨hname List.mem_cons_self, ?_⟩, hfound⟩
              exact fun d hd => hstack (List.mem_append_right _ hd)

/-- What is in the walk stays within any set that is closed. -/
theorem namesInTaskFrom_within {P : String → Prop}
    (hclosed : ∀ n, P n → ∀ d ∈ dependenciesOfName containers n, P d) {rounds : ℕ}
    {stack names : List String} (hstack : ∀ n ∈ stack, P n) (hnames : ∀ n ∈ names, P n) :
    ∀ n ∈ namesInTaskFrom containers rounds stack names, P n := by
  induction rounds generalizing stack names with
  | zero => exact hnames
  | succ rounds ih =>
      cases stack with
      | nil => exact hnames
      | cons name stack =>
          rw [namesInTaskFrom]
          have hname := hstack name List.mem_cons_self
          have htail : ∀ n ∈ stack, P n := fun n hn => hstack n (List.mem_cons_of_mem _ hn)
          split
          · exact ih htail hnames
          · apply ih
            · intro n hn
              rcases List.mem_append.mp hn with hn | hn
              · exact hclosed name hname n (List.mem_reverse.mp hn)
              · exact htail n hn
            · intro n hn
              rcases List.mem_append.mp hn with hn | hn
              · exact hnames n hn
              · rw [List.mem_singleton.mp hn]
                exact hname

theorem containerNamesInTask_closed (containers : IndexMap String Config.Container) (root : String)
    (taskDependencies : Option (List String)) :
    let names := containerNamesInTask containers root taskDependencies
    root ∈ names ∧ taskDependencies.getD [] ⊆ names ∧
      ∀ n ∈ names, dependenciesOfName containers n ⊆ names := by
  have hunpushed : unpushed containers.entries [] = declaredDependencies containers := by
    unfold unpushed declaredDependencies IndexMap.values
    simp [List.flatMap_map]
  obtain ⟨-, hstart, hclosed⟩ := namesInTaskFrom_closed
    ((root :: taskDependencies.getD []).reverse.length +
      (declaredDependencies containers).length + 1)
    (root :: taskDependencies.getD []).reverse [] (by rw [hunpushed]; omega) (by simp)
  refine ⟨hstart (by simp), fun d hd => hstart ?_, hclosed⟩
  rw [List.mem_reverse]
  exact List.mem_cons_of_mem _ hd

end names

/-! ### A task's run -/

/-- A container with the fields that the engine's start-up and cleanup read. -/
def Config.Container.forEngine (container : Config.Container) : Ratect.Container where
  dependencies := container.dependencies
  image := container.image.map String.ofList
  imagePullPolicy := container.imagePullPolicy
  buildDirectory := container.buildDirectory.map String.ofList
  networkMode := container.networkMode
  setupCommands := container.setupCommands
  runToCompletion := container.runToCompletion
  externalHealthCheck := container.externalHealthCheck.isSome
  reportsReadinessFor := container.reportsReadinessFor
  identity := container.identity.isSome
  user := container.user.isSome

/-- `TaskEngine::evaluate_task`: the task and every container of its graph.  `evaluate` returns
every task it is asked for, so the last branch is not taken. -/
def LoadedProject.evaluateTask (project : LoadedProject) (machine : Machine) (unicode : Char → Bool)
    (overrides : IndexMap String Text) (hostEnv : Text → Option Text) (name : String)
    (task : Config.Task) :
    Except String (Config.Task × List (String × Config.Container)) := do
  let names := match task.run with
    | some run => containerNamesInTask project.config.containers run.container task.dependencies
    | none => []
  let evaluated ← project.evaluate machine unicode names [name] overrides hostEnv
  match evaluated.tasks.find? fun e => e.1 = name with
  | some e => return (e.2, evaluated.containers)
  | none => .error "evaluate returns every task it is asked for"

/-- The container that a memo cell of the engine is about is declared. -/
def Cell.DeclaredIn (containers : Containers) : Cell → Prop
  | .execution => True
  | .pull _ _ => True
  | .built name => ∃ container, containers.get? name = some container
  | .image name => ∃ container, containers.get? name = some container
  | .created name => ∃ container, containers.get? name = some container
  | .ready name => ∃ container, containers.get? name = some container

theorem Containers.get?_of_mem {containers : Containers} {name : String} {container : Container}
    (h : (name, container) ∈ containers.entries) : containers.get? name = some container := by
  cases hget : containers.get? name with
  | none =>
      unfold Containers.get? at hget
      rw [Option.map_eq_none_iff, List.find?_eq_none] at hget
      exact absurd (hget (name, container) h) (by simp)
  | some other =>
      have hother := Containers.mem_entries_of_get? hget
      have heq := List.inj_on_of_nodup_map containers.nodup hother h rfl
      exact congrArg _ (congrArg Prod.snd heq)

section run

variable {settings : Settings} {taskDependencies : Option (List String)} {fast : ℕ → Bool}
  {pulled : List (String × ImagePullPolicy)} {built : List String} {x x' : Execution}

/-- Every initialiser that a run enters is about a declared container. -/
theorem Runs.claims_declared
    (hgraph : GraphOf settings.containers settings.root taskDependencies settings.graph)
    (h : Runs settings fast pulled built x) {p k : Cell}
    (hstep : Execution.step settings fast x (.startup (.claim p k)) = some x') :
    k.DeclaredIn settings.containers := by
  rcases Execution.step_cases hstep with
      ⟨event, s, hevent, -, hs, -⟩ | ⟨hevent, -⟩ | ⟨hevent, -⟩ | ⟨phase, hnext, -⟩
  · cases hevent
    have hknown := (Fanout.reachable_inv (startup_wellFormed hgraph fast) h.startup).claim_known hs
    cases k with
    | execution => trivial
    | pull _ _ => trivial
    | built name => exact hgraph.declared name hknown
    | image name => exact hgraph.declared name hknown
    | created name => exact hgraph.declared name hknown
    | ready name => exact hgraph.declared name hknown
  · cases hevent
  · cases hevent
  · unfold nextPhase at hnext
    split at hnext
    all_goals simp_all

end run

/-- A run takes none of the branches for a configuration that should have been refused: the graph
has only declared containers, a setup command runs in its own container or in a dependency of it, a
shared network is that of a dependency, which the graph puts first, whoever runs as the current user
has a home, and every initialiser that any run enters is about a declared container. -/
structure RunsSafely (containers : Containers) (evaluated : List (String × Config.Container))
    (root : String) (taskDependencies : Option (List String)) : Prop where
  declared : ∀ name,
    buildDependencyGraph containers root taskDependencies ≠ .error (.undeclared name)
  setup : ∀ graph, buildDependencyGraph containers root taskDependencies = .ok graph →
    ∀ name ∈ graph.keys, ∀ container, containers.get? name = some container →
      ∀ command ∈ container.setupCommands.getD [], ∀ target, command.runIn = some target →
        target = name ∨ target ∈ graph.get name
  network : ∀ graph, buildDependencyGraph containers root taskDependencies = .ok graph →
    ∀ name ∈ graph.keys, ∀ container, containers.get? name = some container →
      ∀ target, container.networkMode = some (.container target) →
        target ∈ container.dependencies.getD [] ∧ target ∈ graph.keys ∧
          graph.keys.idxOf target < graph.keys.idxOf name
  home : ∀ name container, (name, container) ∈ evaluated → ∀ user,
    container.runAsCurrentUser = some user →
    user.enabled = true → user.homeDirectory.isSome = true
  claims : ∀ settings : Settings, settings.containers = containers → settings.root = root →
    buildDependencyGraph containers root taskDependencies = .ok settings.graph →
    ∀ fast pulled built x, Runs settings fast pulled built x → ∀ p k x',
      Execution.step settings fast x (.startup (.claim p k)) = some x' → k.DeclaredIn containers

section safety

variable {project : LoadedProject} {machine : Machine} {unicode : Char → Bool}
    {names tasks : List String} {overrides : IndexMap String Text} {hostEnv : Text → Option Text}
    {evaluated : Evaluated}

/-- The containers of a sound project that are evaluated are containers for the engine. -/
theorem sound_containers (hsound : project.config.Sound)
    (heval : project.evaluate machine unicode names tasks overrides hostEnv = .ok evaluated) :
    ∃ containers : Containers,
      containers.entries = evaluated.containers.map fun e => (e.1, e.2.forEngine) := by
  obtain ⟨configVars, -, -, -, hcontainers, -⟩ := evaluate_ok heval
  have hnodup : ((evaluated.containers.map fun e => (e.1, e.2.forEngine)).map Prod.fst).Nodup := by
    rw [hcontainers, List.map_map, List.map_map]
    exact project.config.containers.nodup.sublist (List.Sublist.map Prod.fst List.filter_sublist)
  refine ⟨⟨_, hnodup, ?_⟩, rfl⟩
  intro e he target htarget
  obtain ⟨⟨name, container⟩, hc, rfl⟩ := List.mem_map.mp he
  rw [hcontainers] at hc
  obtain ⟨⟨name', written⟩, hmem, heq⟩ := List.mem_map.mp hc
  cases heq
  exact hsound.network name' written (List.mem_filter.mp hmem).1 target htarget

/-- What the engine holds under a name is a container that the project declares, evaluated. -/
theorem evaluated_of_get?
    (heval : project.evaluate machine unicode names tasks overrides hostEnv = .ok evaluated)
    {containers : Containers}
    (hentries : containers.entries = evaluated.containers.map fun e => (e.1, e.2.forEngine))
    {name : String} {container : Container} (hget : containers.get? name = some container) :
    ∃ declared, (name, declared) ∈ project.config.containers.entries ∧
      container.dependencies = declared.dependencies ∧
        container.setupCommands = declared.setupCommands := by
  have hmem := Containers.mem_entries_of_get? hget
  rw [hentries] at hmem
  obtain ⟨⟨name', evaluated'⟩, hc, heq⟩ := List.mem_map.mp hmem
  cases heq
  obtain ⟨configVars, hdeclared⟩ := evaluate_container heval
  obtain ⟨declared, hdeclared, rfl, -⟩ := hdeclared name' evaluated' hc
  exact ⟨declared, hdeclared, rfl, rfl⟩

theorem get?_of_asked
    (heval : project.evaluate machine unicode names tasks overrides hostEnv = .ok evaluated)
    {containers : Containers}
    (hentries : containers.entries = evaluated.containers.map fun e => (e.1, e.2.forEngine))
    {name : String} (hname : name ∈ names) :
    ∃ container declared, containers.get? name = some container ∧
      project.config.containers.get? name = some declared ∧
      container.dependencies = declared.dependencies := by
  obtain ⟨configVars, hkeys, -, -, hcontainers, -⟩ := evaluate_ok heval
  obtain ⟨declared, hdeclared⟩ := IndexMap.mem_keys_iff.mp (hkeys name hname)
  have hasked : (name, declared) ∈ project.config.containers.entries.filter fun e => e.1 ∈ names :=
    List.mem_filter.mpr ⟨hdeclared, by simpa using hname⟩
  have hevaluated := List.mem_map_of_mem
    (f := fun e : String × Config.Container => (e.1, e.2.forEngine))
      (hcontainers ▸ List.mem_map_of_mem hasked)
  rw [← hentries] at hevaluated
  exact ⟨_, declared, Containers.get?_of_mem hevaluated, IndexMap.get?_of_mem hdeclared, rfl⟩

/-- The run of a task of a sound project. -/
theorem runsSafely_of_sound (hsound : project.config.Sound) {root : String}
    {taskDependencies : Option (List String)}
    (heval : project.evaluate machine unicode
      (containerNamesInTask project.config.containers root taskDependencies)
        tasks overrides hostEnv =
        .ok evaluated)
    {containers : Containers}
    (hentries : containers.entries = evaluated.containers.map fun e => (e.1, e.2.forEngine)) :
    RunsSafely containers evaluated.containers root taskDependencies := by
  obtain ⟨hroot, htask, hclosed⟩ :=
    containerNamesInTask_closed project.config.containers root taskDependencies
  refine ⟨?_, ?_, ?_, ?_, ?_⟩
  · intro missing
    refine visitContainer_declared
      (P := (· ∈ containerNamesInTask project.config.containers root taskDependencies)) ?_ _ hroot
      (fun d hd => htask hd) [] [] missing
    intro n hn
    obtain ⟨container, declared, hget, hdeclared, hsame⟩ := get?_of_asked heval hentries hn
    refine ⟨container, hget, fun d hd => hclosed n hn ?_⟩
    rw [hsame] at hd
    unfold dependenciesOfName
    rw [hdeclared]
    exact hd
  · intro graph hgraph name hname container hget command hcommand target htarget
    have hspec := buildDependencyGraph_spec hgraph
    obtain ⟨declared, hdeclared, hdependencies, hsetup⟩ := evaluated_of_get? heval hentries hget
    rw [hsetup] at hcommand
    rcases hsound.setup name declared hdeclared command hcommand target htarget with h | h
    · exact Or.inl h
    · right
      rw [hspec.lists name hname, dependenciesOf_eq hget, mem_sortedDependencies, hdependencies]
      exact Or.inl h
  · intro graph hgraph name hname container hget target htarget
    have hspec := buildDependencyGraph_spec hgraph
    have hmem := hspec.target_mem hname hget htarget
    exact ⟨containers.targets (name, container)
      (Containers.mem_entries_of_get? hget) target htarget,
      hspec.dependency_mem hname hmem, hspec.idxOf_lt hname hmem⟩
  · intro name container hc user huser henabled
    obtain ⟨configVars, hdeclared⟩ := evaluate_container heval
    obtain ⟨declared, hdeclared, rfl, -⟩ := hdeclared name container hc
    exact hsound.home name declared hdeclared user huser henabled
  · rintro settings rfl rfl hgraph fast pulled built x hruns p k x' hstep
    exact hruns.claims_declared (buildDependencyGraph_spec hgraph) hstep

/-- Every name in the graph of a task of a sound project is declared. -/
theorem namesInTask_declared (hsound : project.config.Sound) {name : String} {task : Config.Task}
    (htask : (name, task) ∈ project.config.tasks.entries) {run : Config.TaskRun}
    (hrun : task.run = some run) :
    ∀ n ∈ containerNamesInTask project.config.containers run.container task.dependencies,
      n ∈ project.config.containers.keys := by
  have hrefers := hsound.references name task htask
  apply namesInTaskFrom_within (P := (· ∈ project.config.containers.keys))
  · intro n hn d hd
    obtain ⟨container, hc⟩ := IndexMap.mem_keys_iff.mp hn
    unfold dependenciesOfName at hd
    rw [IndexMap.get?_of_mem hc] at hd
    exact hsound.dependencies n container hc d hd
  · intro n hn
    rw [List.mem_reverse] at hn
    apply hrefers n
    unfold Config.Task.refersTo
    rw [hrun]
    rcases List.mem_cons.mp hn with rfl | hn
    · exact List.mem_append_left _ List.mem_cons_self
    · exact List.mem_append_right _ hn
  · simp

/-- `evaluate_task` returns the task it was asked for, with the containers that were evaluated. -/
theorem evaluateTask_of_evaluate {name : String} {task : Config.Task}
    (htask : (name, task) ∈ project.config.tasks.entries) {run : Config.TaskRun}
    (hrun : task.run = some run)
    (heval : project.evaluate machine unicode
      (containerNamesInTask project.config.containers run.container task.dependencies)
        [name] overrides hostEnv =
        .ok evaluated) :
    ∃ task', project.evaluateTask machine unicode overrides hostEnv name task =
      .ok (task', evaluated.containers) ∧
      task'.dependencies = task.dependencies ∧
        task'.run.map (·.container) = some run.container := by
  obtain ⟨configVars, -, -, -, -, htasks⟩ := evaluate_ok heval
  have hfound : ∃ e, evaluated.tasks.find? (fun e => e.1 = name) = some e := by
    rw [← Option.isSome_iff_exists, List.find?_isSome, htasks]
    exact ⟨_, List.mem_map_of_mem (List.mem_filter.mpr ⟨htask, by simp⟩), by simp⟩
  obtain ⟨e, he⟩ := hfound
  have hmem := List.mem_of_find?_eq_some he
  rw [htasks] at hmem
  obtain ⟨⟨name', task'⟩, hasked, rfl⟩ := List.mem_map.mp hmem
  obtain rfl : name' = name := by simpa using List.find?_some he
  obtain rfl : task' = task := IndexMap.entry_unique (List.mem_filter.mp hasked).1 htask
  refine ⟨(evaluateTask ⟨machine, unicode, hostEnv, configVars⟩ task').1, ?_, rfl, ?_⟩
  · unfold LoadedProject.evaluateTask
    rw [hrun]
    simp only [heval, bind, Except.bind, he]
    rfl
  · unfold evaluateTask
    rw [hrun]
    rfl

end safety

/-- **A loaded project cannot reach the engine's internal-bug branches.**  For every project that
`load_project_impl` accepts and every task of it with a `run`, on whatever machine and with whatever
values it is evaluated: every name in the task's graph is declared, evaluation returns the task it
is asked for, and the containers it returns run safely. -/
theorem engine_input_sound {machine : Machine} {unicode : Char → Bool} {threePlaces : ℕ → String}
    {configFile : Path} {loaded : LoadedConfig} {project : LoadedProject}
    (h : loadProjectImpl machine unicode threePlaces configFile loaded = .ok project)
    {name : String} {task : Config.Task} (htask : project.config.tasks.get? name = some task)
    {run : Config.TaskRun} (hrun : task.run = some run) (machine' : Machine)
    (overrides : IndexMap String Text) (hostEnv : Text → Option Text) :
    (∀ n ∈ containerNamesInTask project.config.containers run.container task.dependencies,
      n ∈ project.config.containers.keys) ∧
    ∀ evaluated, project.evaluate machine' unicode
        (containerNamesInTask project.config.containers run.container task.dependencies)
          [name] overrides hostEnv =
          .ok evaluated →
      (∃ task', project.evaluateTask machine' unicode overrides hostEnv name task =
          .ok (task', evaluated.containers) ∧
        task'.dependencies = task.dependencies ∧ task'.run.map (·.container) = some run.container) ∧
      ∃ containers : Containers,
        containers.entries = evaluated.containers.map (fun e => (e.1, e.2.forEngine)) ∧
          RunsSafely containers evaluated.containers run.container task.dependencies := by
  obtain ⟨inherited, haccepted⟩ := loadProjectImpl_ok h
  have hsound := haccepted.sound
  have hentry := IndexMap.mem_entries_of_get? htask
  refine ⟨namesInTask_declared hsound hentry hrun, fun evaluated heval => ?_⟩
  obtain ⟨containers, hentries⟩ := sound_containers hsound heval
  exact ⟨evaluateTask_of_evaluate hentry hrun heval, containers, hentries,
    runsSafely_of_sound hsound heval hentries⟩

/-- A project with inheritance, a setup command in another container and an external health
check. -/
def checkedProject : LoadedConfig where
  config :=
    { projectName := "p"
      containers := ⟨[("base", { image := some "alpine".toList, dependencies := some ["db"] }),
          ("app", { extendsName := some "base", setupCommands := some [⟨"migrate", some "db"⟩] }),
          ("db",
            { image := some "postgres".toList,
              externalHealthCheck := some ⟨.tcp 5432, none, none, none⟩ })],
        by decide⟩
      tasks := .single "serve" { run := some { container := "app" } }
      configVariables := none
      forbidTelemetry := none }
  containerBasePaths := .empty
  containerBoundaries := .empty
  containerOrigins := .empty
  format := .native
  files := []
  gitClones := []

/-- The machine it is loaded on. -/
def checkedMachine : Machine := .inMemory (Paths.ofText ['/', 'p']) (Paths.ofText ['/', 'h']) [] []

/-- The task that runs `app` starts the generated container too. -/
theorem engine_input_sound_checked : ∃ project task run evaluated containers,
    loadProjectImpl checkedMachine (fun _ => false) (fun _ => "")
      (Paths.ofText "/p/ratect.toml".toList)
        checkedProject = .ok project ∧
      project.config.tasks.get? "serve" = some task ∧ task.run = some run ∧
      project.evaluate checkedMachine (fun _ => false)
        (containerNamesInTask project.config.containers run.container task.dependencies)
          ["serve"] .empty
        (fun _ => none) = .ok evaluated ∧
      evaluated.containers.map Prod.fst = ["app", "db", "ratect-health-check-db"] ∧
      RunsSafely containers evaluated.containers run.container task.dependencies := by
  have hrun : (loadProjectImpl checkedMachine (fun _ => false) (fun _ => "")
      (Paths.ofText "/p/ratect.toml".toList) checkedProject).passes (fun project =>
        (project.config.tasks.get? "serve").any fun task => task.run.any fun run =>
          (project.evaluate checkedMachine (fun _ => false)
            (containerNamesInTask project.config.containers run.container task.dependencies)
              ["serve"] .empty
            (fun _ => none)).passes fun evaluated =>
              decide (evaluated.containers.map Prod.fst =
                ["app", "db", "ratect-health-check-db"])) = true := by
    decide +kernel
  obtain ⟨project, hproject, htest⟩ := Except.exists_of_passes hrun
  obtain ⟨task, htask, htest⟩ := Option.any_eq_true _ _ |>.mp htest
  obtain ⟨run, hrun, htest⟩ := Option.any_eq_true _ _ |>.mp htest
  obtain ⟨evaluated, heval, htest⟩ := Except.exists_of_passes htest
  obtain ⟨-, containers, -, hsafe⟩ :=
    (engine_input_sound hproject htask hrun checkedMachine .empty fun _ => none).2 evaluated heval
  exact ⟨project, task, run, evaluated, containers, hproject, htask, hrun, heval,
    of_decide_eq_true htest, hsafe⟩

end Ratect
