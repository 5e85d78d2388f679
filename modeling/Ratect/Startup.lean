import Ratect.Containers
import Ratect.FanoutProperties

/-! # Starting the containers of a task

The `execution` of `run_task_internal` up to the task's own container, as scripts of the `Fanout`
library: one cell for the execution itself and one for each memo of the engine (`pulled_images`,
`built_images`, and a task's `image_cells`, `created_cells` and `ready_cells`).  A script is the
source function from one `await` to the next: `resolve_pulled_image`, `resolve_image` (the build),
`ensure_image_resolved`, `ensure_container_created` and `ensure_container_ready`.

Steps that only the host takes (`checkBuild`, `prepare`) are calls like the daemon's: they end the
initialiser or let it go on.  The events posted, and the watchers spawned once a container is
ready, decide nothing here and are left out. -/

namespace Ratect

open Fanout (Script System Ranking)

/-! ### The cells and the calls -/

/-- The execution, and the memo cells it shares. -/
inductive Cell where
  | execution
  | pull (image : String) (policy : ImagePullPolicy)
  | built (name : String)
  | image (name : String)
  | created (name : String)
  | ready (name : String)
deriving DecidableEq, Repr

/-- What an initialiser asks of the daemon or the host. -/
inductive Request where
  | networkExists (name : String)
  | createNetwork
  | localImageId (image : String)
  | pullImage (image : String)
  | checkBuild (name : String)
  | buildImage (name : String)
  | tagImage (name tag : String)
  | hostUser (name : String)
  | daemonClass (name : String)
  | prepare (name : String)
  | createContainer (name : String)
  | applyIdentity (name : String)
  | startBackgroundContainer (name : String)
  | waitForExit (name : String)
  | containerOutput (name : String)
  | waitForHealthy (name : String)
  | execInContainer (name : String) (index : ℕ)
deriving DecidableEq, Repr

/-- The answers: a success; a success that says no (there is no such network or image, the exit
code is not 0); a refusal; and a failed create whose container exists. -/
inductive Answer where
  | success
  | negative
  | refused
  | refusedCreated
deriving DecidableEq, Repr

/-- The operations that `max_parallelism` counts. -/
def Request.capped : Request → Bool
  | pullImage _ => true
  | buildImage _ => true
  | createContainer _ => true
  | startBackgroundContainer _ => true
  | execInContainer _ _ => true
  | _ => false

/-- A script of the engine. -/
abbrev Startup := Script Cell Request Answer

/-- `?` on an answer: a success goes on, anything else fails. -/
def orFail (next : Startup) : Answer → Startup
  | .success => next
  | _ => .fail

/-! ### The scripts -/

/-- What one task execution starts from. -/
structure Settings where
  containers : Containers
  graph : Graph
  root : String
  existingNetwork : Option String
  imageOverrides : String → Option String
  imageTags : String → Option (List String)
  maxParallelism : Option ℕ
  taskContainerReadinessGate : Bool

section scripts

variable (settings : Settings)

/-- The pull itself, under a permit. -/
def pullUnderPermit (image : String) : Startup :=
  .acquire (.call (.pullImage image) (orFail .done))

/-- `resolve_pulled_image`. -/
def resolvePulledImage (image : String) : ImagePullPolicy → Startup
  | .always => pullUnderPermit image
  | .ifNotPresent => .call (.localImageId image) fun
      | .success => .done
      | .negative => pullUnderPermit image
      | _ => .fail

/-- `--tag-image`: every tag is tried, and a refusal is reported at the end. -/
def tagAll (name : String) : List String → Bool → Startup
  | [], refused => if refused then .fail else .done
  | tag :: tags, refused => .call (.tagImage name tag) fun
      | .success => tagAll name tags refused
      | _ => tagAll name tags true

/-- The build of `resolve_image`: what it reads on the host is checked first; the permit is held
until the tags are applied. -/
def resolveBuild (name : String) : Startup :=
  .call (.checkBuild name) (orFail (.acquire (.call (.buildImage name)
    (orFail (tagAll name ((settings.imageTags name).getD []) false)))))

/-- The cell that `resolve_image` awaits: an override is a pull, and only a built image can be
tagged. -/
def imageSource (name : String) (container : Container) : Option Cell :=
  match settings.imageOverrides name with
  | some image =>
      if (settings.imageTags name).isSome then none else some (.pull image .ifNotPresent)
  | none =>
      match container.image with
      | some image =>
          if (settings.imageTags name).isSome then none
          else some (.pull image (container.imagePullPolicy.getD .ifNotPresent))
      | none => if container.buildDirectory.isSome then some (.built name) else none

/-- `ensure_image_resolved`. -/
def ensureImageResolved (name : String) : Startup :=
  match settings.containers.get? name with
  | none => .fail
  | some container =>
      match imageSource settings name container with
      | none => .fail
      | some source => .join [[source]] .done

/-- The create call and, for a container with an identity, its application, under one permit. -/
def createUnderPermit (name : String) (container : Container) : Startup :=
  .acquire (.call (.createContainer name) (orFail
    (if container.identity then .call (.applyIdentity name) (orFail (.release .done))
      else .release .done)))

/-- The other container that a container is created with: the target of `container:`. -/
def networkTarget (container : Container) : Option String :=
  match container.networkMode with
  | some (.container target) => some target
  | _ => none

/-- From the image on: the target's id, what only the host decides, the create. -/
def createWithImage (name : String) (container : Container) : Startup :=
  let create := .call (.prepare name) (orFail (createUnderPermit name container))
  match networkTarget container with
  | some target => .join [[.created target]] create
  | none => create

/-- `ensure_container_created`. -/
def ensureContainerCreated (name : String) : Startup :=
  match settings.containers.get? name with
  | none => .fail
  | some container =>
      let withImage : Startup := .join [[.image name]] (createWithImage name container)
      -- the daemon's class only decides a warning, so a refusal does not matter
      let withClass : Startup :=
        if container.identity || container.user then .call (.daemonClass name) fun _ => withImage
        else withImage
      if container.identity then .call (.hostUser name) (orFail withClass) else withClass

/-- `run_setup_commands` from a command on: each under a permit of its own. -/
def runSetupCommands (name : String) (dependencies : List String) : ℕ → List SetupCommand → Startup
  | _, [] => .done
  | index, command :: commands =>
      let exec : Startup := .acquire (.call (.execInContainer name index)
        (orFail (.release (runSetupCommands name dependencies (index + 1) commands))))
      match command.runIn.filter fun target => target ≠ name with
      | some target => if target ∈ dependencies then exec else .fail
      | none => exec

/-- The readiness gate of a started container. -/
def readinessGate (name : String) (container : Container) (dependencies : List String) : Startup :=
  if container.runToCompletion.getD false then
    .call (.waitForExit name) fun
      | .success => .done
      | .negative =>
          if container.reportsReadinessFor.isSome then .call (.containerOutput name) fun _ => .fail
          else .fail
      | _ => .fail
  else
    let setup := runSetupCommands name dependencies 0 (container.setupCommands.getD [])
    if container.externalHealthCheck then setup else .call (.waitForHealthy name) (orFail setup)

/-- `ensure_container_ready`. -/
def ensureContainerReady (name : String) : Startup :=
  let dependencies := settings.graph.get name
  .join [dependencies.map .ready]
    (match settings.containers.get? name with
    | none => .fail
    | some container =>
        .join [[.created name]] (.acquire (.call (.startBackgroundContainer name)
          (orFail (.release (readinessGate name container dependencies))))))

/-- The containers of the graph by name (`container_names.sort()`). -/
def containerNames : List String := settings.graph.keys.insertionSort (· ≤ ·)

/-- `execution` up to the task's own container: the network, the fan-out over every container and
every dependency of the task's own, and the hit on the task's own container. -/
def startExecution : Startup :=
  let fanOut : Startup :=
    .join [(containerNames settings).map .created, (settings.graph.get settings.root).map .ready]
      (.join [[.created settings.root]] .done)
  match settings.existingNetwork with
  | some name => .call (.networkExists name) (orFail fanOut)
  | none => .call .createNetwork (orFail fanOut)

/-- The script of each cell. -/
def cellScript : Cell → Startup
  | .execution => startExecution settings
  | .pull image policy => resolvePulledImage image policy
  | .built name => resolveBuild settings name
  | .image name => ensureImageResolved settings name
  | .created name => ensureContainerCreated settings name
  | .ready name => ensureContainerReady settings name

/-- The start-up of one task execution; `fast n` says whether `try_join_all` over `n` futures
returns at its first error. -/
def startupSystem (fast : ℕ → Bool) : System Cell Request Answer where
  script := cellScript settings
  top := .execution
  cap := settings.maxParallelism
  fast := fast

/-- `try_join_all` as the crate implements it: over at most thirty futures it is fail-fast. -/
def tryJoinAllFast (n : ℕ) : Bool := n ≤ 30

end scripts

end Ratect
