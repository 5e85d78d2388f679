import Ratect.Evaluation
import Ratect.LoadedConfig
import Ratect.Strings

/-! # Rules for containers and tasks as declared

What `load_project_impl` (`config.rs`) judges before inheritance: the fields that a container of a
Batect-format file may not set and the one that only such a container may, the shape of every value
that is a literal, and the shape of each task.  A value that holds an expression is left to
evaluation.  A refusal is its message with its causes. -/

namespace Ratect

open Paths (Path)

/-! ### Containers that follow Batect's rules -/

/-- `ConfigFormat::is_batect_shaped`. -/
def ConfigFormat.isBatectShaped (format : ConfigFormat) : Option Path → Bool
  | none => format == .compat
  | some origin => format.readsAsBatect origin

/-- `BatectShaped`: a container that follows Batect's rules, and how a message names its file. -/
structure BatectShaped where
  name : String
  container : Config.Container
  origin : Option String
  wayOut : Option BatectFile

/-- `batect_shaped_containers`. -/
def LoadedConfig.batectShapedContainers (loaded : LoadedConfig)
    (configFile : Path) : List BatectShaped :=
  let format := loaded.format
  (loaded.config.containers.entries.filter fun e =>
      format.isBatectShaped (loaded.containerOrigins.get? e.1)).map fun e =>
    { name := e.1
      container := e.2
      origin := (loaded.containerOrigins.get? e.1).map fun origin =>
        describeOrigin origin (loaded.containerBoundaries.get? e.1)
      wayOut :=
        if format = .native then
          some (.of (loaded.containerBoundaries.get? e.1).isSome (format.readsAsBatect configFile))
        else none }

/-- `batect_rule_rejection`. -/
def BatectShaped.batectRuleRejection (entry : BatectShaped) (message : String) : String :=
  match entry.origin with
  | some origin =>
      s!"{message} It is declared in {origin}, and a container declared in a Batect-format " ++
      "(YAML) file follows Batect's rules wherever it is included."
  | none => message

/-- `native_field_rejection`. -/
def BatectShaped.nativeFieldRejection (entry : BatectShaped) (message : String) : String :=
  match entry.wayOut with
  | some file =>
      s!"{entry.batectRuleRejection message} To use it, " ++ file.remedy "that container" ++ "."
  | none => entry.batectRuleRejection message

/-- The first of the fields that is set. -/
def firstSet (fields : List (String × Bool)) : Option String := (fields.find? Prod.snd).map Prod.fst

/-- The first container with an offence is refused for it. -/
def rejectFirst (offence : BatectShaped → Option String) (containers : List BatectShaped) :
    Except String Unit :=
  match containers.findSome? offence with
  | some message => .error message
  | none => .ok ()

/-- The first container with an offence of a native field, told in the words that follow its
name. -/
def rejectNative (offence : Config.Container → Option String) :
    List BatectShaped → Except String Unit :=
  rejectFirst fun entry => (offence entry.container).map fun said =>
    entry.nativeFieldRejection
      (s!"The container '{entry.name}' {said}, which is a ratect-native field " ++
      "not supported in Batect-compatible configuration.")

/-- The first container that sets one of the native fields. -/
def rejectNativeFields (fields : Config.Container → List (String × Bool)) :
    List BatectShaped → Except String Unit :=
  rejectNative fun container => (firstSet (fields container)).map fun field => s!"uses '{field}'"

/-- `reject_extends_in_compat`. -/
def rejectExtendsInCompat : List BatectShaped → Except String Unit :=
  rejectNativeFields fun c => [("extends", c.extendsName.isSome)]

/-- `reject_run_to_completion_in_compat`. -/
def rejectRunToCompletionInCompat : List BatectShaped → Except String Unit :=
  rejectNativeFields fun c => [("run_to_completion", c.runToCompletion.getD false)]

/-- `reject_external_health_check_in_compat`. -/
def rejectExternalHealthCheckInCompat : List BatectShaped → Except String Unit :=
  rejectNativeFields fun c => [("external_health_check", c.externalHealthCheck.isSome)]

/-- `reject_setup_command_run_in_compat`. -/
def rejectSetupCommandRunInCompat : List BatectShaped → Except String Unit :=
  rejectNative fun c =>
    if (c.setupCommands.getD []).any fun command => command.runIn.isSome then
      some "has a setup command using 'run_in'"
    else none

/-- `reject_shared_caches_in_compat`: a `scope`, whatever it says. -/
def rejectSharedCachesInCompat : List BatectShaped → Except String Unit :=
  rejectNative fun c => (c.volumes.getD []).findSome? fun
    | .cache mount =>
        if mount.scope.isSome then
          some s!"declares the cache '{printableString mount.name}' with a 'scope'"
        else none
    | _ => none

/-- `reject_stop_signal_in_compat`. -/
def rejectStopSignalInCompat : List BatectShaped → Except String Unit :=
  rejectNativeFields fun c => [("stop_signal", c.stopSignal.isSome)]

/-- `reject_stop_grace_period_in_compat`. -/
def rejectStopGracePeriodInCompat : List BatectShaped → Except String Unit :=
  rejectNativeFields fun c => [("stop_grace_period", c.stopGracePeriod.isSome)]

/-- `reject_ulimits_in_compat`. -/
def rejectUlimitsInCompat : List BatectShaped → Except String Unit :=
  rejectNativeFields fun c => [("ulimits", c.ulimits.isSome)]

/-- `reject_dns_in_compat`. -/
def rejectDnsInCompat : List BatectShaped → Except String Unit :=
  rejectNativeFields fun c =>
    [("dns", c.dns.isSome), ("dns_search", c.dnsSearch.isSome),
      ("dns_options", c.dnsOptions.isSome)]

/-- `reject_network_mode_in_compat`. -/
def rejectNetworkModeInCompat : List BatectShaped → Except String Unit :=
  rejectNativeFields fun c => [("network_mode", c.networkMode.isSome)]

/-- `reject_passthrough_identity_in_compat`. -/
def rejectPassthroughIdentityInCompat : List BatectShaped → Except String Unit :=
  rejectNativeFields fun c =>
    [("user", c.user.isSome), ("group", c.group.isSome), ("groups", c.groups.isSome)]

/-- `reject_identity_in_compat`. -/
def rejectIdentityInCompat : List BatectShaped → Except String Unit :=
  rejectNativeFields fun c => [("identity", c.identity.isSome)]

/-- The offence that `validate_image_sources_in_compat` finds: both sources of an image, neither, or
a field that only a build reads beside `image`. -/
def imageSourceOffence (name : String) (c : Config.Container) : Option String :=
  match c.image, c.buildDirectory with
  | some _, some _ =>
      some (s!"Container '{name}' has both 'image' and 'build_directory', but only one of " ++
      "the two can be given.")
  | none, none => some s!"Container '{name}' has neither 'image' nor 'build_directory' set."
  | none, some _ => none
  | some _, none =>
      (firstSet [("build_args", c.buildArgs.isSome), ("build_target", c.buildTarget.isSome),
        ("dockerfile", c.dockerfile.isSome), ("build_ssh", c.buildSsh.isSome),
        ("build_secrets", c.buildSecrets.isSome)]).map fun field =>
          s!"Container '{name}' has '{field}', which cannot be used with 'image' — it only applies to a " ++
          "container built from a 'build_directory'."

/-- `validate_image_sources_in_compat`. -/
def validateImageSourcesInCompat : List BatectShaped → Except String Unit :=
  rejectFirst fun entry =>
    (imageSourceOffence entry.name entry.container).map entry.batectRuleRejection

/-- `reject_image_expressions_in_compat`. -/
def rejectImageExpressionsInCompat (unicode : Char → Bool) :
    List BatectShaped → Except String Unit :=
  rejectFirst fun entry =>
    (entry.container.image.filter (Expressions.containsExpression unicode)).map fun image =>
      entry.batectRuleRejection
        (s!"Container '{entry.name}' uses an expression in its 'image' " ++
        s!"('{String.ofList (printable image)}'), which is a ratect-native feature not supported in " ++
        "Batect-compatible configuration. Batect resolves no expression there, so a file using one would " ++
        "stop working under 'batect' itself. Write a fixed image here; " ++
        s!"'--override-image {entry.name}=...' is how this binary chooses one per run.")

/-- `RUN_AS_CURRENT_USER_TO_IDENTITY`. -/
def runAsCurrentUserToIdentity : String :=
  "https://github.com/or1can/ratect/blob/main/docs/ratect-config-reference.md#coming-from-run_as_current_user"

/-- `reject_run_as_current_user_in_toml`. -/
def rejectRunAsCurrentUserInToml (loaded : LoadedConfig) : Except String Unit :=
  loaded.config.containers.entries.forM fun e =>
    let origin := loaded.containerOrigins.get? e.1
    let declaredIn := match origin with
      | some origin =>
          s!" It is declared in {describeOrigin origin (loaded.containerBoundaries.get? e.1)}."
      | none => ""
    Except.ensure (e.2.runAsCurrentUser = none ∨ loaded.format.isBatectShaped origin = true)
      (s!"The container '{e.1}' uses 'run_as_current_user', which only a Batect-format (YAML) file can " ++
      s!"set.{declaredIn} Use 'identity' instead: see {runAsCurrentUserToIdentity}.")

/-- `reject_incompatible_fields`. -/
def rejectIncompatibleFields (unicode : Char → Bool) (configFile : Path) (loaded : LoadedConfig) :
    Except String Unit := do
  let shaped := loaded.batectShapedContainers configFile
  rejectExtendsInCompat shaped
  rejectRunToCompletionInCompat shaped
  rejectExternalHealthCheckInCompat shaped
  rejectSetupCommandRunInCompat shaped
  rejectSharedCachesInCompat shaped
  rejectStopSignalInCompat shaped
  rejectStopGracePeriodInCompat shaped
  rejectUlimitsInCompat shaped
  rejectDnsInCompat shaped
  rejectNetworkModeInCompat shaped
  rejectPassthroughIdentityInCompat shaped
  rejectIdentityInCompat shaped
  validateImageSourcesInCompat shaped
  rejectImageExpressionsInCompat unicode shaped
  rejectRunAsCurrentUserInToml loaded

/-! ### IP addresses -/

namespace IpAddress

/-- `Parser::read_number`: digits of a radix up to a value below `limit`, at most so many; with
`zeroPrefix` a number may start with a needless `0`. -/
def readNumber (radix maxDigits limit : ℕ) (zeroPrefix : Bool) (text : Text) : Option Text :=
  let value (c : Char) : Option ℕ :=
    if c.isDigit then some (c.toNat - '0'.toNat)
    else if radix = 16 ∧ 'a' ≤ c.toLower ∧ c.toLower ≤ 'f' then
      some (c.toLower.toNat - 'a'.toNat + 10)
    else none
  let digits := text.takeWhile fun c => (value c).isSome
  let number := digits.foldl (fun n c => n * radix + (value c).getD 0) 0
  if digits = [] ∨ maxDigits < digits.length ∨ limit ≤ number then none
  else if !zeroPrefix && digits.head? = some '0' && 1 < digits.length then none
  else some (text.drop digits.length)

/-- `Parser::read_given_char`. -/
def readChar (expected : Char) : Text → Option Text
  | c :: rest => if c = expected then some rest else none
  | [] => none

/-- `Parser::read_ipv4_addr`: what follows the address. -/
def readIpv4Addr (text : Text) : Option Text := do
  let rest ← readNumber 10 3 256 false text
  let rest ← readNumber 10 3 256 false (← readChar '.' rest)
  let rest ← readNumber 10 3 256 false (← readChar '.' rest)
  readNumber 10 3 256 false (← readChar '.' rest)

/-- `read_separator`: a `:` before every group but the first. -/
def readSeparator (first : Bool) (read : Text → Option Text) (text : Text) : Option Text :=
  if first then read text else (readChar ':' text).bind read

/-- `read_groups`, with `limit` groups left: how many were read, whether the last two were an IPv4
address, and what follows. -/
def readGroups : ℕ → Bool → Text → ℕ × Bool × Text
  | 0, _, text => (0, false, text)
  | limit + 1, first, text =>
      match if limit = 0 then none else readSeparator first readIpv4Addr text with
      | some rest => (2, true, rest)
      | none =>
          match readSeparator first (readNumber 16 4 (2 ^ 16) true) text with
          | none => (0, false, text)
          | some rest =>
              let (groups, ipv4, rest) := readGroups limit false rest
              (groups + 1, ipv4, rest)

/-- `Parser::read_ipv6_addr`: eight groups, or fewer around one `::`. -/
def readIpv6Addr (text : Text) : Option Text :=
  let (head, headIpv4, rest) := readGroups 8 true text
  if head = 8 then some rest
  else if headIpv4 then none
  else do
    let rest ← readChar ':' (← readChar ':' rest)
    return (readGroups (7 - head) true rest).2.2

/-- `str::parse::<IpAddr>`. -/
def isIpAddress (text : Text) : Bool :=
  readIpv4Addr text = some [] || readIpv6Addr text = some []

example : isIpAddress "192.168.0.1".toList ∧ isIpAddress "::1".toList ∧
    ¬ isIpAddress "192.168.00.1".toList ∧ ¬ isIpAddress "dns.local".toList := by decide +kernel

end IpAddress

/-- `validate_dns_servers`. -/
def validateDnsServers (config : Config) : Except String Unit :=
  config.containers.entries.forM fun e => (e.2.dns.getD []).forM fun server =>
    Except.ensure (IpAddress.isIpAddress server.toList = true)
      s!"The container '{e.1}' has a 'dns' entry, '{printableString server}', that is not an IP address."

/-! ### Command lines -/

/-- `TokenizerState`. -/
inductive TokenizerState where
  | normal
  | singleQuote
  | doubleQuote
deriving DecidableEq

/-- The loop of `tokenize_command_line`; `current` is the argument being read. -/
def tokenizeFrom (input : Text) (state : TokenizerState) (arguments : List Text) (current : Text) :
    Text → Except String (List Text)
  | [] =>
      match state with
      | .doubleQuote => .error
          s!"Command `{String.ofList input}` is invalid: it contains an unbalanced double quote"
      | .singleQuote => .error
          s!"Command `{String.ofList input}` is invalid: it contains an unbalanced single quote"
      | .normal => .ok (if current = [] then arguments else arguments ++ [current])
  | c :: rest =>
      if state = .singleQuote then
        if c = '\x27' then tokenizeFrom input .normal arguments current rest
        else tokenizeFrom input .singleQuote arguments (current ++ [c]) rest
      else if c = '\\' then
        match rest with
        | [] =>
            .error (s!"Command `{String.ofList input}` is invalid: it ends with a backslash (backslashes " ++
            "always escape the following character, for a literal backslash, use '\\\\')")
        | escaped :: rest => tokenizeFrom input state arguments (current ++ [escaped]) rest
      else if c = '\x22' then
        tokenizeFrom input (if state = .normal then .doubleQuote else .normal)
          arguments current rest
      else if state = .doubleQuote then tokenizeFrom input state arguments (current ++ [c]) rest
      else if isWhitespace c then
        if current.any fun c => !isWhitespace c then
          tokenizeFrom input .normal (arguments ++ [current]) [] rest
        else tokenizeFrom input .normal arguments [] rest
      else if c = '\x27' then tokenizeFrom input .singleQuote arguments current rest
      else tokenizeFrom input .normal arguments (current ++ [c]) rest

/-- `tokenize_command_line`. -/
def tokenizeCommandLine (input : Text) : Except String (List Text) :=
  tokenizeFrom input .normal [] [] input

/-- A command line that cannot be split is refused. -/
def checkCommandLine (context : String) (command : Option Text) : Except String Unit :=
  match command with
  | none => .ok ()
  | some command => Except.withContext context ((tokenizeCommandLine command).map fun _ => ())

/-! ### Values -/

/-- `validate_cache_name`: it names storage, not a path. -/
def validateCacheName (name : String) : Except String Unit :=
  Except.ensure (name.toList.head?.any Char.isAlphanum = true ∧
      name.toList.all (fun c => c.isAlphanum || c ∈ ['_', '.', '-']) = true)
    (s!"has a 'cache' volume mount named '{printableString name}', which is not a valid cache name. A " ++
    "cache name must start with a letter or digit and contain only letters, digits, underscores, dots " ++
    "and dashes — it names storage, not a path.")

section check

variable (machine : Machine) (unicode : Char → Bool)

/-- One `volumes` entry. -/
def checkVolume (anchor : Anchor) : Config.VolumeMount → Except String Unit
  | .cache mount => validateCacheName mount.name
  | .host mount =>
      if mount.localIsExpression anchor.batectShaped then
        checkLiteralPath machine unicode mount.host anchor .volumes
      else if anchor.boundary.isSome then
        (anchorPath machine mount.host anchor .volumes).map fun _ => ()
      else .ok ()
  | .tmpfs _ => .ok ()

/-- One `build_secrets` entry. -/
def checkSecret (anchor : Anchor) : Config.BuildSecret → Except String Unit
  | .environment _ => .ok ()
  | .path path => checkLiteralPath machine unicode path anchor .buildSecrets

/-- The `build_ssh` entries, after the ids seen so far. -/
def checkAgents (anchor : Anchor) (ids : List String) : List Config.SshAgent → Except String Unit
  | [] => .ok ()
  | agent :: agents => do
      Except.ensure (agent.id ∉ ids)
        (s!"has more than one 'build_ssh' entry with the id '{printableString agent.id}', but each SSH " ++
        "agent must have a unique id")
      agent.paths.forM fun path => checkLiteralPath machine unicode path anchor .buildSsh
      checkAgents anchor (ids ++ [agent.id]) agents

/-- `run_as_current_user`: a home exactly if it is enabled. -/
def checkRunAsCurrentUser (user : Config.RunAsCurrentUser) : Except String Unit :=
  match user.enabled, user.homeDirectory with
  | true, none =>
      .error "has 'run_as_current_user.enabled' set to true, but no 'home_directory' was provided"
  | true, some home => checkHomeDirectory "run_as_current_user.home_directory" home
  | false, some _ => .error ("has 'run_as_current_user.home_directory' set, but " ++
      "'run_as_current_user.enabled' is not true")
  | false, none => .ok ()

/-- `identity.home`, if it is a literal. -/
def checkIdentity (identity : Config.Identity) : Except String Unit :=
  if Expressions.containsExpression unicode identity.home then .ok ()
  else checkIdentityHome identity.home

/-- A field, if it is set. -/
def checkField {α : Type} (check : α → Except String Unit) : Option α → Except String Unit
  | none => .ok ()
  | some value => check value

/-- The part of `check_values` about one container. -/
def checkContainer (anchor : Anchor) (container : Config.Container) : Except String Unit := do
  (container.volumes.getD []).forM (checkVolume machine unicode anchor)
  checkField (fun path => checkLiteralPath machine unicode path anchor .buildDirectory)
    container.buildDirectory
  (container.buildSecrets.getD []).forM fun e => checkSecret machine unicode anchor e.2
  checkCommandLine "has an invalid 'command'" container.command
  checkCommandLine "has an invalid 'entrypoint'" container.entrypoint
  (container.setupCommands.getD []).forM fun command =>
    checkCommandLine "has an invalid setup command" (some command.command.toList)
  checkAgents machine unicode anchor [] (container.buildSsh.getD [])
  checkField checkRunAsCurrentUser container.runAsCurrentUser
  checkField (checkIdentity unicode) container.identity

/-- The part of `check_values` about one task. -/
def checkTask (name : String) (task : Config.Task) : Except String Unit := do
  Except.ensure (task.run.isSome = true ∨ task.prerequisites.getD [] ≠ [])
    s!"Task '{name}' must have at least one of 'run' or 'prerequisites'"
  match task.run with
  | none =>
      Except.ensure (task.dependencies.getD [] = [])
        (s!"Task '{name}' has 'dependencies' but no 'run' — 'run' is required if 'dependencies' is " ++
        "provided")
  | some run => do
      Except.ensure (run.container ∉ task.dependencies.getD [])
        (s!"Task '{name}' cannot have container '{printableString run.container}' as both the main task " ++
        "container (via 'run') and a task-level dependency")
      checkCommandLine s!"Task '{name}' has an invalid 'run.command'" run.command
      checkCommandLine s!"Task '{name}' has an invalid 'run.entrypoint'" run.entrypoint
      Except.ensure (run.container ∉ (task.customise.map IndexMap.keys).getD [])
        (s!"Cannot apply customisations to main task container '{printableString run.container}' in task " ++
        s!"'{name}'. Set the corresponding properties on 'run' instead")

/-- `check_values`. -/
def checkValues (config : Config) (provenance : Provenance) (projectDirectory : Path) :
    Except String Unit := do
  config.containers.entries.forM fun e => Except.withContext s!"Container '{e.1}'"
    (checkContainer machine unicode (provenance.anchor e.1 projectDirectory) e.2)
  config.tasks.entries.forM fun e => checkTask e.1 e.2

end check

end Ratect
