import Ratect.Containers
import Ratect.IndexMap

/-! # The configuration model

What one configuration file holds once it is read (`config.rs`, `user.rs`), with every value as
written: a field that may hold an expression is its text, and so is a host path.  A `HashMap` is
the list of its entries.  The YAML and TOML parsers stand outside the model; that a map has each
name once is theirs (`IndexMap`).

Carried along but read by nothing in the model, and so left out: a task's fields that only the
container runtime reads (its working directory, its description and its group). -/

namespace Ratect

namespace Config

/-- `build_secrets`: one secret, from the host's environment or from a file. -/
inductive BuildSecret where
  | environment (name : String)
  | path (path : Text)
deriving DecidableEq, Repr

/-- `build_ssh`: one agent and the keys it offers. -/
structure SshAgent where
  id : String
  paths : List Text
deriving DecidableEq, Repr

/-- The scope of a cache. -/
inductive CacheScope where
  | project
  | shared
deriving DecidableEq, Repr

/-- A `local` volume mount; `compact` if it was written as one string. -/
structure LocalVolumeMount where
  host : Text
  container : Text
  options : Option Text
  compact : Bool
deriving DecidableEq, Repr

/-- `local_is_expression`: a compact entry of a Batect-format file is a literal. -/
def LocalVolumeMount.localIsExpression (mount : LocalVolumeMount) (batectShaped : Bool) : Bool :=
  !(mount.compact && batectShaped)

/-- A `cache` volume mount. -/
structure CacheVolumeMount where
  name : String
  container : Text
  options : Option Text
  scope : Option CacheScope
deriving DecidableEq, Repr

/-- A `tmpfs` volume mount. -/
structure TmpfsVolumeMount where
  container : Text
  options : Option Text
deriving DecidableEq, Repr

/-- One entry of `volumes`. -/
inductive VolumeMount where
  | host (mount : LocalVolumeMount)
  | cache (mount : CacheVolumeMount)
  | tmpfs (mount : TmpfsVolumeMount)
deriving DecidableEq, Repr

/-- `run_as_current_user`. -/
structure RunAsCurrentUser where
  enabled : Bool
  homeDirectory : Option Text
deriving DecidableEq, Repr

/-- One of `identity.additional_users`. -/
structure AdditionalUser where
  name : String
  uid : ℕ
  gid : ℕ
deriving DecidableEq, Repr

/-- `identity`. -/
structure Identity where
  home : Text
  additionalUsers : List AdditionalUser
deriving DecidableEq, Repr

/-- A range of ports. -/
structure PortRange where
  first : ℕ
  last : ℕ
deriving DecidableEq, Repr

/-- One entry of `ports`. -/
structure PortMapping where
  host : PortRange
  container : PortRange
  protocol : String
deriving DecidableEq, Repr

/-- `health_check`; durations in nanoseconds. -/
structure HealthCheckConfig where
  command : Option String
  interval : Option ℕ
  retries : Option ℕ
  startPeriod : Option ℕ
  timeout : Option ℕ
deriving DecidableEq, Repr

/-- What an external health check asks for. -/
inductive ExternalHealthCheckKind where
  | http (port : ℕ) (path : Text) (expectedStatus : ℕ)
  | tcp (port : ℕ)
deriving DecidableEq, Repr

/-- `external_health_check`; durations in nanoseconds. -/
structure ExternalHealthCheck where
  kind : ExternalHealthCheckKind
  interval : Option ℕ
  retries : Option ℕ
  timeout : Option ℕ
deriving DecidableEq, Repr

/-- What a limit of `ulimits` bounds. -/
inductive UlimitResource where
  | core | cpu | data | fsize | locks | memlock | msgqueue | nice | nofile | nproc | rss | rtprio
  | rttime | sigpending | stack
deriving DecidableEq, Repr

/-- One limit of `ulimits`. -/
structure Ulimit where
  name : UlimitResource
  soft : ℤ
  hard : ℤ
deriving DecidableEq, Repr

/-- A capability that `capabilities_to_add` and `capabilities_to_drop` name. -/
inductive Capability where
  | auditControl | auditRead | auditWrite | blockSuspend | bpf | checkpointRestore | chown
  | dacOverride | dacReadSearch | fowner | fsetid | ipcLock | ipcOwner | kill | lease
  | linuxImmutable | macAdmin | macOverride | mknod | netAdmin | netBindService | netBroadcast
  | netRaw | perfmon | setgid | setfcap | setpcap | setuid | sysAdmin | sysBoot | sysChroot
  | sysModule | sysNice | sysPacct | sysPtrace | sysRawio | sysResource | sysTime | sysTtyConfig
  | syslog | wakeAlarm | all
deriving DecidableEq, Repr

/-- One entry of `devices`. -/
structure DeviceMapping where
  localPath : String
  container : String
  options : Option String
deriving DecidableEq, Repr

/-- A container as a file declares it.  `buildDirectoryInBundle` and `reportsReadinessFor` are not
read from a file: evaluation sets the first, the expansion of health checks the second. -/
structure Container where
  extendsName : Option String := none
  image : Option Text := none
  imagePullPolicy : Option ImagePullPolicy := none
  buildDirectory : Option Text := none
  buildDirectoryInBundle : Option String := none
  buildArgs : Option (List (String × Text)) := none
  dockerfile : Option Text := none
  buildTarget : Option Text := none
  buildSecrets : Option (List (String × BuildSecret)) := none
  buildSsh : Option (List SshAgent) := none
  volumes : Option (List VolumeMount) := none
  dependencies : Option (List String) := none
  environment : Option (List (String × Text)) := none
  runAsCurrentUser : Option RunAsCurrentUser := none
  additionalHostnames : Option (List String) := none
  additionalHosts : Option (List (String × String)) := none
  ports : Option (List PortMapping) := none
  healthCheck : Option HealthCheckConfig := none
  setupCommands : Option (List SetupCommand) := none
  runToCompletion : Option Bool := none
  externalHealthCheck : Option ExternalHealthCheck := none
  reportsReadinessFor : Option String := none
  workingDirectory : Option String := none
  command : Option Text := none
  entrypoint : Option Text := none
  labels : Option (List (String × String)) := none
  capabilitiesToAdd : Option (List Capability) := none
  capabilitiesToDrop : Option (List Capability) := none
  privileged : Option Bool := none
  shmSize : Option ℤ := none
  devices : Option (List DeviceMapping) := none
  enableInitProcess : Option Bool := none
  logDriver : Option String := none
  logOptions : Option (List (String × String)) := none
  stopSignal : Option String := none
  stopGracePeriod : Option ℕ := none
  ulimits : Option (List Ulimit) := none
  dns : Option (List String) := none
  dnsSearch : Option (List String) := none
  dnsOptions : Option (List String) := none
  networkMode : Option NetworkMode := none
  user : Option Text := none
  group : Option Text := none
  groups : Option (List Text) := none
  identity : Option Identity := none

/-- What a task changes of a container other than its own. -/
structure TaskContainerCustomisation where
  environment : Option (List (String × Text)) := none
  ports : Option (List PortMapping) := none

/-- What a task runs. -/
structure TaskRun where
  container : String
  command : Option Text := none
  environment : Option (List (String × Text)) := none
  ports : Option (List PortMapping) := none
  entrypoint : Option Text := none

/-- A task. -/
structure Task where
  run : Option TaskRun := none
  prerequisites : Option (List String) := none
  dependencies : Option (List String) := none
  customise : Option (IndexMap String TaskContainerCustomisation) := none

/-- A config variable. -/
structure ConfigVariable where
  default : Option Text := none
deriving DecidableEq, Repr

end Config

/-- The merged configuration of a project. -/
structure Config where
  projectName : String
  containers : IndexMap String Config.Container
  tasks : IndexMap String Config.Task
  configVariables : Option (IndexMap String Config.ConfigVariable)
  forbidTelemetry : Option Bool

/-! ### Include entries -/

/-- A Git remote, as written. -/
structure Remote where
  url : String
deriving DecidableEq, Repr

/-- One entry of `include`. -/
inductive IncludeEntry where
  | file (path : Text)
  | git (repo : Remote) (gitRef : String) (path : Option Text) (allowHostPaths : Bool)
      (allowNestedGitIncludes : Option Bool) (reviewedRatectVersion : Option String)
deriving DecidableEq, Repr

/-- One file as read, before includes are resolved and files merged. -/
structure ConfigFile where
  projectName : Option String := none
  containers : IndexMap String Config.Container := .empty
  tasks : IndexMap String Config.Task := .empty
  configVariables : Option (IndexMap String Config.ConfigVariable) := none
  includes : List IncludeEntry := []
  forbidTelemetry : Option Bool := none
  ratectVersion : Option String := none

/-- Which loader reads a project: `ratect-compat`'s or `ratect`'s. -/
inductive ConfigFormat where
  | compat
  | native
deriving DecidableEq, Repr

/-- The parser that a file's extension selects in the native format. -/
inductive FileFormat where
  | toml
  | yaml
deriving DecidableEq, Repr

/-! ### Names -/

/-- Where a reader of an image-name component stands: before the first character, in a run of
letters and digits, or after what may join two runs. -/
inductive NameState where
  | start
  | run
  | dot
  | underscore
  | underscores
  | dashes
deriving DecidableEq

/-- A lower-case letter or a digit. -/
def isNameCharacter (c : Char) : Bool := (decide ('a' ≤ c) && decide (c ≤ 'z')) || c.isDigit

/-- The next state, if the character may stand here. -/
def NameState.next (state : NameState) (c : Char) : Option NameState :=
  if isNameCharacter c then some .run
  else
    match state, c with
    | .run, '.' => some .dot
    | .run, '_' => some .underscore
    | .underscore, '_' => some .underscores
    | .run, '-' => some .dashes
    | .dashes, '-' => some .dashes
    | _, _ => none

/-- `is_name_component`: runs of letters and digits, joined by a `.`, one or two `_`, or `-`s. -/
def isNameComponent (name : Text) : Bool :=
  name.foldl (fun state c => state.bind (·.next c)) (some NameState.start) == some .run

/-- A reader of a name reads letters, digits, dots, underscores and dashes. -/
theorem NameState.next_some {state state' : NameState} {c : Char} (h : state.next c = some state') :
    isNameCharacter c = true ∨ c ∈ ['.', '_', '-'] := by
  unfold NameState.next at h
  split at h
  · exact Or.inl ‹_›
  · split at h
    · exact Or.inr (by decide)
    · exact Or.inr (by decide)
    · exact Or.inr (by decide)
    · exact Or.inr (by decide)
    · exact Or.inr (by decide)
    · cases h

/-- The reader in this state takes the whole text and ends in a run. -/
def NameState.accepts (state : NameState) (t : Text) : Bool :=
  t.foldl (fun state c => state.bind (·.next c)) (some state) == some .run

theorem NameState.accepts_nil {state : NameState} : state.accepts [] = true ↔ state = .run := by
  unfold accepts
  rw [List.foldl_nil, beq_iff_eq, Option.some.injEq]

theorem NameState.accepts_cons {state : NameState} {c : Char} {t : Text} :
    state.accepts (c :: t) = true ↔
      ∃ state', state.next c = some state' ∧ state'.accepts t = true := by
  unfold accepts
  rw [List.foldl_cons, Option.bind_some]
  cases hnext : state.next c with
  | some state' => simp only [Option.some.injEq, exists_eq_left']
  | none =>
      have hnone : t.foldl (fun state c => state.bind (·.next c))
          (none : Option NameState) = none := by
        induction t with
        | nil => rfl
        | cons c t ih => exact ih
      rw [hnone]
      simp

theorem NameState.accepts_chars {state : NameState} {t : Text} (h : state.accepts t = true) :
    ∀ c ∈ t, isNameCharacter c = true ∨ c ∈ ['.', '_', '-'] := by
  induction t generalizing state with
  | nil => exact fun _ hc => absurd hc List.not_mem_nil
  | cons c t ih =>
      obtain ⟨state', hnext, haccepts⟩ := accepts_cons.mp h
      exact List.forall_mem_cons.mpr ⟨next_some hnext, ih haccepts⟩

theorem isNameComponent_chars {name : Text} (h : isNameComponent name = true) :
    ∀ c ∈ name, isNameCharacter c = true ∨ c ∈ ['.', '_', '-'] :=
  @NameState.accepts_chars .start name h

end Ratect
