import Ratect.IdentityHome
import Ratect.LiteralEscaping
import Ratect.FieldRules
import Ratect.KeyOrder

/-! # What to check after a conversion

`conversion_checks` (`diagnostics.rs`): the containers of a Batect-format project that behave
differently once it is converted, each with what its message says, ordered by container and then by
kind. -/

namespace Ratect

/-- `ConversionCheckKind`, in the order that one container's items are listed in. -/
inductive ConversionCheckKind where
  | bundleOffersNativeFile
  | bundleDeclaresGitIncludes
  | ungatedTaskContainer
  | runAsCurrentUserBecomesIdentity
  | homeDirectoryExpression
  | compactVolumeExpression
deriving DecidableEq, Repr

/-- The place of a kind in that order. -/
def ConversionCheckKind.rank : ConversionCheckKind → ℕ
  | bundleOffersNativeFile => 0
  | bundleDeclaresGitIncludes => 1
  | ungatedTaskContainer => 2
  | runAsCurrentUserBecomesIdentity => 3
  | homeDirectoryExpression => 4
  | compactVolumeExpression => 5

/-- `ConversionCheck`: the container it is about, if it is about one, and what it says. -/
structure ConversionCheck where
  container : Option String
  kind : ConversionCheckKind
  message : String
deriving DecidableEq, Repr

/-- The order of a list of checks: by container, those about none first, and then by kind. -/
def ConversionCheck.before (a b : ConversionCheck) : Bool :=
  match a.container, b.container with
  | none, none => a.kind.rank ≤ b.kind.rank
  | none, some _ => true
  | some _, none => false
  | some x, some y => x < y ∨ (x = y ∧ a.kind.rank ≤ b.kind.rank)

section checks

variable (unicode : Char → Bool) (config : Config)

/-- `enabled_run_as_current_user`: each container with its home, if it has one. -/
def enabledRunAsCurrentUser : List (String × Option Text) :=
  config.containers.entries.filterMap fun e => e.2.runAsCurrentUser.bind fun user =>
    if user.enabled then some (e.1, user.homeDirectory) else none

/-- A cache that can be written to. -/
def Config.VolumeMount.isWritableCache : Config.VolumeMount → Bool
  | .cache mount => !isReadOnly mount.options
  | _ => false

/-- One of `run_as_current_user_checks`. -/
def runAsCurrentUserCheck (name : String) (home : Option Text) : ConversionCheck :=
  let dotted := home.any identityHomeHasAParentComponent
  let writableCache := (config.containers.get? name).any fun container =>
    (container.volumes.getD []).any Config.VolumeMount.isWritableCache
  let cacheRemark :=
    if writableCache then " and a fresh cache volume stays root-owned, which a non-root USER can't write to"
    else ""
  let homeRemark :=
    if dotted then
      " Its home holds a '..', which identity.home refuses, so it won't run until that is changed."
    else ""
  { container := some name
    kind := .runAsCurrentUserBecomesIdentity
    message :=
      s!"Container '{name}' had run_as_current_user enabled and now has identity, so the image's " ++
      "/etc/passwd, /etc/shadow and /etc/group are no longer replaced, and --user no longer applies on " ++
      s!"Desktop and remapped daemons, where it runs as the image's own user{cacheRemark} (see " ++
      s!"{runAsCurrentUserToIdentity}).{homeRemark}" }

/-- `run_as_current_user_checks`. -/
def runAsCurrentUserChecks : List ConversionCheck :=
  (IndexMap.byKey (enabledRunAsCurrentUser config)).map fun e =>
    runAsCurrentUserCheck config e.1 e.2

/-- The text of a literal would be read as an expression once it is converted. -/
def becomesExpression (literal : Text) : Bool :=
  Expressions.containsExpression unicode (Expressions.literalAsExpression unicode literal)

/-- One of `home_directory_expression_checks`. -/
def homeDirectoryExpressionCheck (name : String) (home : Text) : ConversionCheck where
  container := some name
  kind := .homeDirectoryExpression
  message := s!"Container '{name}' has identity.home '{String.ofList home}', from a " ++
    "run_as_current_user.home_directory that batect.yml uses as written but ratect evaluates as an " ++
    "expression — check what it resolves to under ratect."

/-- `home_directory_expression_checks`. -/
def homeDirectoryExpressionChecks : List ConversionCheck :=
  let homes := (enabledRunAsCurrentUser config).filterMap fun e => e.2.bind fun home =>
    if becomesExpression unicode home then some (e.1, home) else none
  (IndexMap.byKey homes).map fun e => homeDirectoryExpressionCheck e.1 e.2

/-- The host path of a compact volume that would become an expression. -/
def Config.VolumeMount.becomingExpression : Config.VolumeMount → Option Text
  | .host mount =>
      if !mount.localIsExpression true && becomesExpression unicode mount.host then
        some mount.host else none
  | _ => none

/-- One of `compact_volume_expression_checks`. -/
def compactVolumeExpressionCheck (name : String) (host : Text) : ConversionCheck where
  container := some name
  kind := .compactVolumeExpression
  message :=
    s!"Container '{name}' has a volume host path '{String.ofList host}', which batect.yml uses as " ++
    "written but ratect evaluates as an expression — check what it resolves to under ratect."

/-- `compact_volume_expression_checks`. -/
def compactVolumeExpressionChecks : List ConversionCheck :=
  let volumes := config.containers.entries.flatMap fun e =>
    ((e.2.volumes.getD []).filterMap (Config.VolumeMount.becomingExpression unicode)).map
      fun host => (e.1, host)
  (IndexMap.byKey volumes).map fun e => compactVolumeExpressionCheck e.1 e.2

/-- The tasks that run each container as their own, both by name. -/
def tasksByContainer : List (String × List String) :=
  let runs := config.tasks.entries.filterMap fun e => e.2.run.map fun run => (run.container, e.1)
  ((runs.map Prod.fst).dedup.mergeSort fun a b => decide (a ≤ b)).map fun container =>
    (container, ((runs.filter fun r => r.1 = container).map Prod.snd).mergeSort fun a b =>
      decide (a ≤ b))

/-- The tasks that run a container, as a message names them. -/
def describeRuns (container : String) (tasks : List String) : String :=
  let quoted := tasks.map fun name => s!"'{name}'"
  match quoted with
  | [one] => s!"Task {one} runs container '{container}' as its own"
  | _ =>
      let rest := ", ".intercalate quoted.dropLast
      let last := quoted.getLast?.getD ""
      s!"Tasks {rest} and {last} run container '{container}' as their own"

/-- One of `ungated_task_container_checks`: none for a container without readiness fields. -/
def ungatedTaskContainerCheck (name : String) (tasks : List String) : Option ConversionCheck :=
  (config.containers.get? name).bind fun container =>
    let healthCheck :=
      if container.healthCheck.isSome then
        some "the container's 'health_check' isn't waited on" else none
    let setupCommands :=
      if container.setupCommands.getD [] = [] then none
      else if healthCheck.isSome then some "its 'setup_commands' don't run"
      else some "the container's 'setup_commands' don't run"
    let effects := healthCheck.toList ++ setupCommands.toList
    let said := " and ".intercalate effects
    if effects = [] then none
    else some
      { container := some name
        kind := .ungatedTaskContainer
        message := s!"{describeRuns name tasks}, so under ratect {said} — a task's own " ++
          "container has no readiness gate (see " ++
          "https://github.com/or1can/ratect/blob/main/docs/dependency-readiness.md#the-tasks-own-container)." }

/-- `ungated_task_container_checks`. -/
def ungatedTaskContainerChecks : List ConversionCheck :=
  (tasksByContainer config).filterMap fun e => ungatedTaskContainerCheck config e.1 e.2

/-- `conversion_checks`. -/
def conversionChecks : List ConversionCheck :=
  (ungatedTaskContainerChecks config ++ runAsCurrentUserChecks config ++
    homeDirectoryExpressionChecks unicode config ++
      compactVolumeExpressionChecks unicode config).mergeSort
      ConversionCheck.before

end checks

end Ratect
