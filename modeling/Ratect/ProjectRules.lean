import Ratect.FieldRules

/-! # Rules for a whole project

What `load_project_impl` (`config.rs`) judges once every container has what it inherits: that what a
project refers to is declared, that a setup command and a shared network name a dependency, and what
may not be set together.  Then `expand_external_health_checks` turns each external health check into
a generated container and the dependencies on it. -/

namespace Ratect

/-! ### References -/

/-- `EXTERNAL_HEALTH_CHECK_PREFIX`. -/
def externalHealthCheckPrefix : String := "ratect-health-check-"

/-- `external_health_check_container_name`. -/
def externalHealthCheckContainerName (container : String) : String :=
  externalHealthCheckPrefix ++ container

/-- What a container depends on. -/
def Config.Container.dependsOn (container : Config.Container) : List String :=
  container.dependencies.getD []

/-- What a task refers to: its container and its own dependencies. -/
def Config.Task.refersTo (task : Config.Task) : List String :=
  (task.run.map (·.container)).toList ++ task.dependencies.getD []

/-- The names that will be generated. -/
def Config.companions (config : Config) : List String :=
  (config.containers.entries.filter fun e => e.2.externalHealthCheck.isSome).map fun e =>
    externalHealthCheckContainerName e.1

/-- `reject_references_to_undeclared_containers`; a name that will be generated counts as
declared. -/
def rejectReferencesToUndeclaredContainers (config : Config) : Except String Unit := do
  let check (referrer : String) (reference : String) : Except String Unit :=
    Except.ensure (reference ∈ config.containers.keys ∨ reference ∈ config.companions)
      s!"The container '{printableString reference}' referenced by {referrer} does not exist."
  config.containers.entries.forM fun e => e.2.dependsOn.forM (check s!"container '{e.1}'")
  config.tasks.entries.forM fun e => e.2.refersTo.forM (check s!"task '{e.1}'")

/-! ### Caches and run-to-completion containers -/

/-- `CacheVolumeMount::scope`: an omitted one is the project's. -/
def Config.CacheVolumeMount.effectiveScope (mount : Config.CacheVolumeMount) : Config.CacheScope :=
  mount.scope.getD .project

/-- The cache mounts of a container. -/
def Config.Container.caches (container : Config.Container) : List Config.CacheVolumeMount :=
  (container.volumes.getD []).filterMap fun
    | .cache mount => some mount
    | _ => none

/-- The loop of `reject_conflicting_cache_scopes`, after the caches seen so far. -/
def checkCacheScopes :
    List (String × Config.CacheScope) → List Config.CacheVolumeMount → Except String Unit
  | _, [] => .ok ()
  | seen, mount :: mounts => do
      Except.ensure (∀ e ∈ seen, e.1 = mount.name → e.2 = mount.effectiveScope)
        (s!"The cache '{printableString mount.name}' is declared with both 'project' and 'shared' scope. " ++
        "A cache name refers to one piece of storage, so it can only have one.")
      checkCacheScopes (seen ++ [(mount.name, mount.effectiveScope)]) mounts

/-- `reject_conflicting_cache_scopes`. -/
def rejectConflictingCacheScopes (config : Config) : Except String Unit :=
  checkCacheScopes [] (config.containers.values.flatMap Config.Container.caches)

/-- `reject_run_to_completion_conflicts`. -/
def rejectRunToCompletionConflicts (config : Config) : Except String Unit :=
  config.containers.entries.forM fun e =>
    if e.2.runToCompletion.getD false then do
      Except.ensure (e.2.healthCheck = none)
        (s!"Container '{e.1}' has 'run_to_completion' set, but also has 'health_check' — a " ++
        "run-to-completion dependency has no health check of its own")
      Except.ensure (e.2.setupCommands.getD [] = [])
        (s!"Container '{e.1}' has 'run_to_completion' set, but also has 'setup_commands' — a " ++
        "run-to-completion dependency has no setup commands of its own")
    else .ok ()

/-- Whether a container runs as the current user. -/
def Config.Container.runsAsCurrentUser (container : Config.Container) : Bool :=
  container.runAsCurrentUser.any (·.enabled)

/-- `reject_relative_cache_mounts_under_user_mapping`. -/
def rejectRelativeCacheMountsUnderUserMapping (config : Config) : Except String Unit :=
  config.containers.entries.forM fun e =>
    if e.2.runsAsCurrentUser then
      e.2.caches.forM fun mount => Except.ensure (mount.container.head? = some '/')
        (s!"Container '{e.1}' has an invalid 'cache' volume mount: " ++
        s!"'{String.ofList (printable mount.container)}' is not an absolute path")
    else .ok ()

/-! ### The containers of a task -/

/-- The loop of `container_names_in_task`: the stack, its top first, and the names found. -/
def namesInTaskFrom (containers : IndexMap String Config.Container) :
    ℕ → List String → List String → List String
  | 0, _, names => names
  | _ + 1, [], names => names
  | rounds + 1, name :: stack, names =>
      if name ∈ names then namesInTaskFrom containers rounds stack names
      else
        namesInTaskFrom containers rounds
          (((containers.get? name).map Config.Container.dependsOn).getD []
            |>.reverse |>.append stack)
          (names ++ [name])

/-- Every dependency of every container. -/
def declaredDependencies (containers : IndexMap String Config.Container) : List String :=
  containers.values.flatMap Config.Container.dependsOn

/-- `container_names_in_task`.  What is pushed is the start, and once for each declared container
its dependencies, so so many rounds empty the stack (`containerNamesInTask_closed`). -/
def containerNamesInTask (containers : IndexMap String Config.Container) (root : String)
    (taskDependencies : Option (List String)) : List String :=
  let start := (root :: taskDependencies.getD []).reverse
  namesInTaskFrom containers (start.length + (declaredDependencies containers).length + 1) start []

/-- `reject_customisations_outside_the_task_graph`. -/
def rejectCustomisationsOutsideTheTaskGraph (config : Config) : Except String Unit :=
  config.tasks.entries.forM fun e =>
    match e.2.run, e.2.customise with
    | some run, some customise =>
        let names := containerNamesInTask config.containers run.container e.2.dependencies
        match customise.keys.find? fun name => name ∉ names with
        | none => .ok ()
        | some name =>
            .error (s!"Task '{e.1}' has customisations for container '{printableString name}', " ++
            s!"but the container '{printableString name}' will not be started as part of the task")
    | _, _ => .ok ()

/-! ### Setup commands -/

/-- Whether a name is that of a run-to-completion container. -/
def Config.runsToCompletion (config : Config) (name : String) : Bool :=
  (config.containers.get? name).any fun container => container.runToCompletion.getD false

/-- One setup command of `validate_setup_command_targets`. -/
def validateSetupCommand (config : Config) (name : String) (container : Config.Container)
    (command : SetupCommand) : Except String Unit :=
  match command.runIn with
  | none => .ok ()
  | some target =>
      if target = name then .ok ()
      else do
        let shown := printableString target
        Except.ensure (target ∈ container.dependsOn)
          (s!"The setup command '{command.command}' on container '{name}' has 'run_in' set to '{shown}', " ++
          "which is not one of that container's own dependencies. A setup command can only run in the " ++
          "container that declares it or in one of that container's dependencies — add " ++
          s!"'{shown}' to the 'dependencies' of '{name}' to order it ahead of this command. Ordering it " ++
          "from a task's own 'dependencies' is not enough: that holds for one task, and this container " ++
          "may be used by others.")
        Except.ensure (config.runsToCompletion target = false)
          (s!"The setup command '{command.command}' on container '{name}' has 'run_in' set to '{target}', " ++
          "which is a run-to-completion dependency. It has already exited by the time it is considered " ++
          "ready, so there is nothing left to run a command in.")

/-- `validate_setup_command_targets`. -/
def validateSetupCommandTargets (config : Config) : Except String Unit :=
  config.containers.entries.forM fun e =>
    (e.2.setupCommands.getD []).forM (validateSetupCommand config e.1 e.2)

/-! ### Network modes -/

/-- A network mode as a file writes it. -/
def NetworkMode.written : NetworkMode → String
  | host => "host"
  | none => "none"
  | container target => s!"container:{target}"

/-- The walk of `network_namespace_owner`, after the containers of its path.  Every round adds a
declared container to the path, so as many rounds as there are containers and one more suffice. -/
def networkNamespaceOwnerFrom (config : Config) (name target : String) :
    ℕ → List String → String → Except String (String × Option String)
  | 0, _, owner => .ok (owner, none)
  | rounds + 1, path, owner =>
      match config.containers.get? owner with
      | none =>
          let reached :=
            if owner = target then "" else s!", which leads to '{printableString owner}'"
          .error (s!"The container '{name}' has 'network_mode' set to share the network of " ++
            s!"'{printableString target}'{reached}, but '{printableString owner}' is not a container in " ++
            "this project.")
      | some container =>
          if owner ∈ path then
            let members := " → ".intercalate
              ((path.drop (path.idxOf owner) ++ [owner]).map fun member => "'" ++ member ++ "'")
            .error (s!"The container '{name}' has 'network_mode' set to share the network of '{target}', but " ++
              s!"that leads into a loop ({members}) in which no container has a network of its own to share.")
          else
            match container.networkMode with
            | some (.container next) =>
                networkNamespaceOwnerFrom config name target rounds (path ++ [owner]) next
            | some mode => .ok (owner, some mode.written)
            | none => .ok (owner, none)

/-- `network_namespace_owner`. -/
def networkNamespaceOwner (config : Config) (name target : String) :
    Except String (String × Option String) :=
  networkNamespaceOwnerFrom config name target (config.containers.entries.length + 2) [] target

/-- `shared_network_description`. -/
def sharedNetworkDescription (owner target : String) : String :=
  if owner = target then s!"it shares the network of '{owner}'"
  else s!"it shares the network of '{owner}' (through '{target}')"

/-- The fields that need the task's network. -/
def taskNetworkFields (container : Config.Container) : List (String × Bool) :=
  [("ports", container.ports.isSome),
    ("additional_hostnames", container.additionalHostnames.isSome),
    ("external_health_check", container.externalHealthCheck.isSome)]

/-- The fields that belong to the owner of a network namespace. -/
def sharedNamespaceFields (container : Config.Container) : List (String × Bool) :=
  [("additional_hosts", container.additionalHosts.isSome), ("dns", container.dns.isSome),
    ("dns_search", container.dnsSearch.isSome), ("dns_options", container.dnsOptions.isSome)]

/-- The first of the fields that is set is refused. -/
def refuseSet (fields : List (String × Bool)) (message : String → String) : Except String Unit :=
  match firstSet fields with
  | none => .ok ()
  | some field => .error (message field)

/-- The part of `validate_network_modes` about a container that shares another one's network. -/
def validateSharedNetwork (config : Config) (name : String) (container : Config.Container)
    (target : String) :
    Except String Unit := do
  let (owner, ownerMode) ← networkNamespaceOwner config name target
  Except.ensure (target ∈ container.dependsOn)
    (s!"The container '{name}' has 'network_mode' set to share the network of '{target}', which is not one " ++
    s!"of that container's own dependencies. Add '{target}' to the 'dependencies' of '{name}', so it is " ++
    s!"running before '{name}' starts.")
  Except.ensure (config.runsToCompletion target = false)
    (s!"The container '{name}' has 'network_mode' set to share the network of '{target}', which is a " ++
    "run-to-completion dependency. It has already exited by the time it is considered ready, so there is " ++
    "no network left to share.")
  let shares := sharedNetworkDescription owner target
  match ownerMode with
  | some mode => refuseSet (taskNetworkFields container) fun field =>
      s!"The container '{name}' sets both 'network_mode' and '{field}', but {shares}, which has " ++
      s!"'network_mode' set to '{mode}' and so is not on the task's own network, which '{field}' needs — " ++
      s!"remove '{field}'."
  | none => .ok ()
  refuseSet (taskNetworkFields container ++ sharedNamespaceFields container) fun field =>
    s!"The container '{name}' sets both 'network_mode' and '{field}', but {shares}, whose own settings " ++
    s!"apply to every container sharing it — set '{field}' on '{owner}' instead."

/-- The part of `validate_network_modes` about one container. -/
def validateNetworkMode (config : Config) (name : String)
    (container : Config.Container) : Except String Unit :=
  match container.networkMode with
  | none => .ok ()
  | some (.container target) => validateSharedNetwork config name container target
  | some mode => refuseSet (taskNetworkFields container) fun field =>
      s!"The container '{name}' sets both 'network_mode' and '{field}', but with 'network_mode' set to " ++
      s!"'{mode.written}' it is not on the task's own network, which '{field}' needs — remove '{field}'."

/-- The containers that a task publishes ports of. -/
def Config.Task.publishes (task : Config.Task) : List String :=
  (task.run.toList.filter fun run => run.ports.isSome).map (·.container) ++
    (((task.customise.map IndexMap.entries).getD []).filter fun e => e.2.ports.isSome).map Prod.fst

/-- The part of `validate_network_modes` about one container that a task publishes ports of. -/
def validatePublished (config : Config) (task name : String) : Except String Unit :=
  match (config.containers.get? name).bind (·.networkMode) with
  | none => .ok ()
  | some (.container target) => do
      let (owner, ownerMode) ← networkNamespaceOwner config name target
      let shares := sharedNetworkDescription owner target
      match ownerMode with
      | some mode =>
          .error (s!"The task '{task}' sets 'ports' for the container '{name}', but {shares}, " ++
          s!"which has 'network_mode' set to '{mode}' and so is not on the task's own network, which " ++
          "'ports' needs — remove 'ports'.")
      | none =>
          .error (s!"The task '{task}' sets 'ports' for the container '{name}', but {shares} — set " ++
          s!"'ports' for '{owner}' instead, where they reach every container sharing its network.")
  | some mode => .error (s!"The task '{task}' sets 'ports' for the container '{name}', but with " ++
      s!"'network_mode' set to '{mode.written}' that container is not on the task's own network, which " ++
      "'ports' needs — remove 'ports'.")

/-- `validate_network_modes`. -/
def validateNetworkModes (config : Config) : Except String Unit := do
  config.containers.entries.forM fun e => validateNetworkMode config e.1 e.2
  config.tasks.entries.forM fun e => e.2.publishes.forM (validatePublished config e.1)

/-! ### Who a container runs as -/

/-- `is_user_name`. -/
def isUserName (name : String) : Bool :=
  match name.toList with
  | [] => false
  | first :: rest =>
      (first.isAlpha || first == '_') && rest.all fun c => c.isAlphanum || c ∈ ['_', '.', '-']

/-- `validate_additional_users`, after the users seen so far. -/
def validateAdditionalUsers (container : String) :
    List Config.AdditionalUser → List Config.AdditionalUser → Except String Unit
  | _, [] => .ok ()
  | seen, user :: users => do
      Except.ensure (isUserName user.name = true)
        (s!"The container '{container}' has an additional user named '{printableString user.name}', which is " ++
        "not a user name: it must start with a letter or '_', and hold only letters, digits, '_', '.' and " ++
        "'-'.")
      let id := if user.uid = 0 then "uid" else "gid"
      Except.ensure (user.uid ≠ 0 ∧ user.gid ≠ 0)
        s!"In the container '{container}', additional user '{user.name}' has {id} 0, which is root's."
      seen.forM fun earlier => do
        Except.ensure (earlier.name ≠ user.name)
          s!"The container '{container}' has more than one additional user named '{user.name}'."
        Except.ensure (earlier.uid ≠ user.uid)
          (s!"In the container '{container}', additional users '{earlier.name}' and '{user.name}' both have " ++
          s!"uid {user.uid}. Each needs its own.")
        Except.ensure (earlier.gid ≠ user.gid)
          (s!"In the container '{container}', additional users '{earlier.name}' and '{user.name}' both have " ++
          s!"gid {user.gid}. Each needs its own.")
      validateAdditionalUsers container (seen ++ [user]) users

/-- The part of `validate_identity` about a container with an identity. -/
def validateContainerIdentity (name : String) (container : Config.Container)
    (identity : Config.Identity) :
    Except String Unit := do
  validateAdditionalUsers name [] identity.additionalUsers
  refuseSet [("user", container.user.isSome), ("group", container.group.isSome)] fun other =>
    s!"The container '{name}' has both 'identity' and '{other}', set on it or inherited through 'extends', " ++
    "and each says who it runs as. It can only have one, and an inherited field can't be removed, only " ++
    "overridden."
  Except.ensure (container.runsAsCurrentUser = false)
    (s!"The container '{name}' has both 'identity' and an enabled 'run_as_current_user', inherited through " ++
    "'extends', and each says who it runs as. It can only have one, and a TOML file can't override or " ++
    "remove that inherited field.")
  container.caches.forM fun mount => Except.ensure (mount.container.head? = some '/')
    (s!"The container '{name}' has 'identity' and a 'cache' volume mount at " ++
    s!"'{String.ofList (printable mount.container)}', which is relative: beside 'identity', it must be " ++
    "absolute.")

/-- `validate_identity`. -/
def validateIdentity (config : Config) : Except String Unit :=
  config.containers.entries.forM fun e =>
    checkField (validateContainerIdentity e.1 e.2) e.2.identity

/-- `validate_passthrough_identity`. -/
def validatePassthroughIdentity (config : Config) : Except String Unit :=
  config.containers.entries.forM fun e => do
    Except.ensure (e.2.group = none ∨ e.2.user.isSome = true)
      (s!"The container '{e.1}' has 'group' but no 'user', whether set on it or inherited through 'extends'. " ++
      "'group' is the primary group 'user' runs with, so it needs one.")
    Except.ensure (e.2.user = none ∨ e.2.runsAsCurrentUser = false)
      (s!"The container '{e.1}' has both 'user' and an enabled 'run_as_current_user', inherited through " ++
      "'extends', and each says who it runs as. It can only have one, and a TOML file can't override or " ++
      "remove that inherited field.")
    let values := e.2.user.toList.map (("user", ·)) ++ e.2.group.toList.map (("group", ·)) ++
      (e.2.groups.getD []).map (("groups", ·))
    values.forM fun value => Except.ensure (value.2 ≠ [] ∧ ':' ∉ value.2)
      (s!"The container '{e.1}' has a '{value.1}' value, '{String.ofList (printable value.2)}', that is not a " ++
      "name or an id: it must not be empty or contain a ':'.")

/-- `reject_inherited_run_as_current_user`. -/
def rejectInheritedRunAsCurrentUser (config : Config)
    (provenance : Provenance) : Except String Unit :=
  config.containers.entries.forM fun e =>
    let supplier := (provenance.suppliersOf e.1).runAsCurrentUser
    Except.ensure (e.2.runsAsCurrentUser = false ∨ supplier = e.1)
      (s!"The container '{e.1}' inherits an enabled 'run_as_current_user' from '{supplier}' through 'extends', " ++
      "and a TOML file can't override or remove it. Use 'identity' instead, on a parent that doesn't have " ++
      s!"the field: see {runAsCurrentUserToIdentity}.")

/-! ### External health checks -/

/-- `EXTERNAL_HEALTH_CHECK_IMAGE`. -/
def externalHealthCheckImage : Text :=
  "curlimages/curl@sha256:c1fe1679c34d9784c1b0d1e5f62ac0a79fca01fb6377cdd33e90473c6f9f9a69".toList

/-- A character that `validate_external_health_check_path` refuses, as `{:?}` writes it. -/
def debugOffender (c : Char) : String :=
  let body : Text :=
    if c = '\x27' ∨ c = '\\' then ['\\', c]
    else if c ∈ [' ', '\x22', '$', '\x60'] then [c]
    else escapeDebug c
  String.ofList (['\x27'] ++ body ++ ['\x27'])

/-- `validate_external_health_check_path`. -/
def validateExternalHealthCheckPath (container : String) (path : Text) : Except String Unit := do
  let quoted := String.ofList (printable path)
  Except.ensure (path.head? = some '/')
    s!"Container '{container}' has an invalid 'external_health_check.path': '{quoted}' must start with '/'"
  match path.find? fun c =>
    isWhitespace c || isControl c || c ∈ ['\x27', '\x22', '\\', '\x60', '$'] with
  | none => .ok ()
  | some bad =>
      .error (s!"Container '{container}' has an invalid 'external_health_check.path': '{quoted}' " ++
      s!"contains {debugOffender bad}, which a URL path cannot hold unescaped")

/-- `ContainerName::check`. -/
def checkContainerName (name : String) : Except String Unit :=
  Except.ensure (isNameComponent name.toList = true)
    (s!"Invalid container name '{printableString name}'. Container names must be valid Docker references: " ++
    s!"they {imageNameRule}")

/-- The port that a check connects to. -/
def Config.ExternalHealthCheckKind.port : Config.ExternalHealthCheckKind → ℕ
  | http port _ _ => port
  | tcp port => port

/-- What only a check over HTTP holds. -/
def checkHealthCheckKind (name : String) : Config.ExternalHealthCheckKind → Except String Unit
  | .http _ _ expectedStatus => Except.ensure (100 ≤ expectedStatus ∧ expectedStatus ≤ 999)
      (s!"Container '{name}' has an 'external_health_check.expected_status' of {expectedStatus}, which no " ++
      "HTTP response can carry — a status code is three digits")
  | .tcp _ => .ok ()

/-- What `expand_external_health_checks` refuses of a container with such a check. -/
def checkExternalHealthCheck (name : String) (container : Config.Container)
    (check : Config.ExternalHealthCheck) : Except String Unit := do
  Except.ensure (container.healthCheck = none)
    (s!"Container '{name}' has 'external_health_check' set, but also has 'health_check' — a container is " ++
    "checked from inside or from outside, not both")
  Except.ensure (container.runToCompletion.getD false = false)
    (s!"Container '{name}' has 'external_health_check' set, but also has 'run_to_completion' — a " ++
    "run-to-completion dependency has already exited by the time anything could connect to it")
  Except.ensure (container.setupCommands.getD [] = [])
    (s!"Container '{name}' has 'external_health_check' set, but also has 'setup_commands' — they would run " ++
    "before the external check has passed, against a container that isn't ready yet")
  checkContainerName name
  match check.kind with
  | .http _ path _ => validateExternalHealthCheckPath name path
  | .tcp _ => .ok ()
  Except.ensure (check.kind.port ≠ 0)
    s!"Container '{name}' has an 'external_health_check.port' of zero, which nothing can listen on"
  checkHealthCheckKind name check.kind
  Except.ensure (check.timeout ≠ some 0)
    (s!"Container '{name}' has an 'external_health_check.timeout' of zero, which would disable the timeout " ++
    "rather than make it immediate — omit it for the default, or set a positive duration")
  Except.ensure (check.retries ≠ some 0)
    (s!"Container '{name}' has an 'external_health_check.retries' of zero, which would never run the check " ++
    "at all — omit it for the default, or set a positive count")

/-- The containers with an external health check, in declaration order. -/
def Config.checked (config : Config) : List (String × Config.ExternalHealthCheck) :=
  config.containers.entries.filterMap fun e => e.2.externalHealthCheck.map (e.1, ·)

/-- A reference to a name that is to be generated is refused. -/
def checkReserved (config : Config) (name : String) : Except String Unit := do
  let companion := externalHealthCheckContainerName name
  let reserved (what : String) : String :=
    s!"{what} '{companion}', which is reserved for the container " ++
    s!"Ratect generates for the 'external_health_check' on container '{name}' — rename it"
  Except.ensure (companion ∉ config.containers.keys)
    (reserved "The configuration declares a container named")
  config.containers.entries.forM fun e =>
    Except.ensure (companion ∉ e.2.dependsOn) (reserved s!"Container '{e.1}' depends on")
  config.tasks.entries.forM fun e => do
    Except.ensure (e.2.run.all (fun run => run.container ≠ companion) = true)
      (reserved s!"Task '{e.1}' runs")
    Except.ensure (companion ∉ e.2.dependencies.getD []) (reserved s!"Task '{e.1}' depends on")

/-- `add_dependency_after`. -/
def addDependencyAfter (target companion : String) : Option (List String) → Option (List String)
  | none => none
  | some dependencies =>
      if target ∈ dependencies ∧ companion ∉ dependencies then some (dependencies ++ [companion])
      else some dependencies

/-- What waits on a checked container waits on its check too. -/
def Config.awaitCompanion (config : Config) (name : String) : Config :=
  let companion := externalHealthCheckContainerName name
  { config with
    containers := config.containers.mapEntries fun other container =>
      if other = name ∨ other = companion then container
      else { container with
        dependencies := addDependencyAfter name companion container.dependencies }
    tasks := config.tasks.mapEntries fun _ task =>
      { task with dependencies := addDependencyAfter name companion task.dependencies } }

section expand

-- how a duration's seconds are written to three places, as `{:.3}` writes them as an `f64`
variable (threePlaces : ℕ → String)

/-- `format_seconds`, of a duration in nanoseconds. -/
def formatSeconds (duration : ℕ) : String :=
  if duration % 10 ^ 9 = 0 then toString (duration / 10 ^ 9)
  else if duration < 10 ^ 6 then "0.001"
  else threePlaces duration

/-- `ExternalHealthCheck::command`: the script of the generated container. -/
def Config.ExternalHealthCheck.command (check : Config.ExternalHealthCheck)
    (container : String) : String :=
  let retries := check.retries.getD 30
  let interval := formatSeconds threePlaces (check.interval.getD (10 ^ 9))
  let timeout := check.timeout.getD (5 * 10 ^ 9)
  let (attempt, failure) := match check.kind with
    | .http port path expectedStatus =>
        let url := s!"http://{container}:{port}" ++ String.ofList path
        ("code=$(curl -s -o /dev/null -w %\x7bhttp_code\x7d -m " ++
          formatSeconds threePlaces timeout ++
          s!" \"{url}\"); if [ \"$code\" = \"{expectedStatus}\" ]; then exit 0; fi",
          s!"echo \"last status $code from {url} after {retries} attempt(s), wanted {expectedStatus}\" >&2")
    | .tcp port =>
        let seconds := max (timeout / 10 ^ 9) 1
        (s!"if nc -z -w {seconds} {container} {port}; then exit 0; fi",
          s!"echo \"no TCP connection to {container}:{port} after {retries} attempt(s)\" >&2")
  s!"-c 'i=0; while [ \"$i\" -lt {retries} ]; do if [ \"$i\" -gt 0 ]; then sleep {interval}; fi; {attempt}; " ++
    s!"i=$((i+1)); done; {failure}; exit 1'"

/-- The generated container of a check. -/
def companionOf (name : String) (check : Config.ExternalHealthCheck) : Config.Container where
  image := some externalHealthCheckImage
  entrypoint := some "sh".toList
  command := some (check.command threePlaces name).toList
  dependencies := some [name]
  runToCompletion := some true
  reportsReadinessFor := some name
  logDriver := some "json-file"

/-- The generated container is added. -/
def Config.addCompanion (config : Config) (e : String × Config.ExternalHealthCheck) : Config :=
  { config with
    containers :=
      config.containers.insert (externalHealthCheckContainerName e.1)
        (companionOf threePlaces e.1 e.2) }

/-- `expand_external_health_checks`. -/
def expandExternalHealthChecks (config : Config) : Except String Config := do
  config.containers.entries.forM fun e =>
    checkField (checkExternalHealthCheck e.1 e.2) e.2.externalHealthCheck
  config.checked.forM fun e => checkReserved config e.1
  let generated := config.checked.foldl (Config.addCompanion threePlaces) config
  return config.checked.foldl (fun config e => config.awaitCompanion e.1) generated

end expand

end Ratect
