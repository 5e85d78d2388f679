import Ratect.Console

/-! # The `simple` and the `all` logger

Each logger's `post`: its state after an event, and what it writes. -/

namespace Ratect.Ui

/-! ### `simple` -/

namespace Simple

/-- `simple.rs`'s `State`. -/
structure State where
  printedATask : Bool
  startedCleanup : Bool
  taskContainer : Option Str

def State.default : State where
  printedATask := false
  startedCleanup := false
  taskContainer := none

/-- `is_task_container`. -/
def State.isTaskContainer (state : State) (container : Str) : Bool :=
  state.taskContainer = some container

variable (rendering : Rendering) (console stderr : Console)

/-- The blank line between one task's output and the next's. -/
def separator (state : State) : List Write :=
  if state.printedATask then [console.println .progress []] else []

def say (line : Text) : List Write := [console.println .progress line]

/-- `SimpleEventLogger::post`. -/
def post (state : State) (event : TaskEvent) : State × List Write :=
  match stderr.printStderrClass event with
  | some write => (state, [write])
  | none =>
    match event with
    | .taskStarting task =>
        (⟨true, false, none⟩,
          separator console state ++
            say console (own "Running " ++ console.boldStr task ++ own "..."))
    | .prerequisitesOnly task =>
        ({ state with printedATask := true },
          separator console state ++ say console (console.nothingMoreToDo task))
    | .taskFinished task exitCode duration =>
        (state, say console (console.formatTaskSummary rendering task exitCode duration))
    | .taskFailed task duration =>
        (state, say console (console.formatTaskFailedSummary rendering task duration))
    | .imagePullStarting image =>
        (state, say console (own "Pulling " ++ console.boldStr image ++ own "..."))
    | .imagePullCompleted image =>
        (state, say console (own "Pulled " ++ console.boldStr image ++ own "."))
    | .imageBuildStarting container =>
        (state, say console (own "Building " ++ console.boldStr container ++ own "..."))
    | .imageBuildCompleted container =>
        (state, say console (own "Built " ++ console.boldStr container ++ own "."))
    | .dependencyStarting container =>
        (state, say console (own "Starting " ++ console.boldStr container ++ own "..."))
    | .dependencyStarted container =>
        (state, say console (own "Started " ++ console.boldStr container ++ own "."))
    | .containerBecameHealthy container =>
        (state, if state.isTaskContainer container then []
          else say console (console.boldStr container ++ own " has become healthy."))
    | .dependencyCompleted container =>
        (state, say console (console.boldStr container ++ own " ran to completion."))
    | .runningSetupCommand container command index total runIn =>
        let location :=
          match runIn with
          | some runIn => console.boldStr runIn ++ own ", for " ++ console.boldStr container
          | none => console.boldStr container
        (state, if state.isTaskContainer container then []
          else say console (own "Running setup command " ++ console.command command ++
            own " (" ++ number index ++
            own " of " ++ number total ++ own ") in " ++ location ++ own "..."))
    | .setupCommandsCompleted container =>
        (state, if state.isTaskContainer container then []
          else say console (console.boldStr container ++ own " has completed all setup commands."))
    | .dependencyExitedUnexpectedly container exitCode =>
        (state, say console (console.boldStr container ++ own " " ++
          console.exitedUnexpectedly exitCode ++ own "."))
    | .runningTaskContainer container command =>
        let line :=
          match command with
          | some command => own "Running " ++ console.command command ++ own " in " ++
              console.boldStr container ++ own "..."
          | none => own "Running " ++ console.boldStr container ++ own "..."
        (state, say console line)
    | .cleanupStarting cause =>
        let (fired, startedCleanup) := fireOnce state.startedCleanup
        ({ state with startedCleanup },
          if fired then say console [] ++ say console (console.cleaningUp cause) else [])
    | .taskGraphResolved containers =>
        ({ state with taskContainer := (containers.find? (·.isTaskContainer)).map (·.name) }, [])
    | _ => (state, [])

end Simple

/-! ### `all` -/

namespace Interleaved

/-- `interleaved.rs`'s `State`; a map is the list of its insertions. -/
structure State where
  task : Option Str
  taskContainer : Option Str
  preamblePending : Bool
  colors : List (Str × Color)
  images : List (Str × Str)
  buildTags : List (Str × Str)
  prefixWidth : ℕ
  startedCleanup : Bool

def State.default : State where
  task := none
  taskContainer := none
  preamblePending := false
  colors := []
  images := []
  buildTags := []
  prefixWidth := 0
  startedCleanup := false

/-- `CONTAINER_COLORS`. -/
def containerColors : List Color := [.cyan, .yellow, .green, .magenta, .blue]

/-- What a map built by `insertions` holds under a key. -/
def lookup {α : Type} (insertions : List (Str × α)) (key : Str) : Option α :=
  (insertions.reverse.find? (·.1 = key)).map (·.2)

/-- The entries of a map, one for each key. -/
def entries (insertions : List (Str × Str)) : List (Str × Str) :=
  (insertions.filter fun entry => lookup insertions entry.1 = some entry.2).dedup

def sortNames (names : List Str) : List Str := names.mergeSort fun a b => decide (a ≤ b)

variable (rendering : Rendering) (console stderr result : Console)

/-- `shown_width`. -/
def shownWidth (name : Str) : ℕ := rendering.strWidth (printable name)

/-- `print_prefixed`: each line of the text under the name's prefix.  What ended a line in the text
ends it in print; `ending` ends the last. -/
def printPrefixed (on : Console) (stream : Stream) (state : State) (name : Str)
    (color : Option Color) (text : Text) (ending : Glyph) : List Write :=
  let padding :=
    own (String.ofList (List.replicate (state.prefixWidth - shownWidth rendering name) ' '))
  let padded := toText name ++ padding
  let heading :=
    match color with
    | some color => on.boldColored color padded
    | none => on.bold padded
  (splitLines Glyph.isBreak text).map fun line =>
    on.printlnEnding stream (heading ++ own " | " ++ line.1) (line.2.getD ending)

/-- `print_for_container`. -/
def printForContainer (state : State) (container : Str) (line : Text) : List Write :=
  printPrefixed rendering console .progress state container
    (lookup state.colors container) line newline

/-- `print_for_task`. -/
def printForTask (state : State) (line : Text) : List Write :=
  printPrefixed rendering console .progress state (state.task.getD []) none line newline

/-- `flush_preamble_if_pending`. -/
def flushPreambleIfPending (state : State) : State × List Write :=
  if state.preamblePending then
    ({ state with preamblePending := false },
      printForTask rendering console state
        (own "Running " ++ console.boldStr (state.task.getD []) ++ own "..."))
  else (state, [])

/-- `containers_for_image`. -/
def containersForImage (state : State) (image : Str) : List Str :=
  sortNames (((entries state.images).filter (·.2 = image)).map (·.1))

/-- `container_for_build_tag`. -/
def containerForBuildTag (state : State) (tag : Str) : Option Str :=
  ((rendering.hashOrder (entries state.buildTags)).find? (·.2 = tag)).map (·.1)

/-- `TaskGraphResolved`, before the preamble. -/
def graphResolved (state : State) (containers : List TaskContainerInfo) : State :=
  let taskWidth := (state.task.map (shownWidth rendering)).getD 0
  let names := sortNames (containers.map (·.name))
  { state with
    taskContainer := (containers.find? (·.isTaskContainer)).map (·.name)
    prefixWidth :=
      ((containers.map fun info => shownWidth rendering info.name) ++ [taskWidth]).foldl max 0
    colors := names.zipIdx.map fun name =>
      (name.1, containerColors.getD (name.2 % containerColors.length) .cyan)
    images := containers.filterMap fun info => info.image.map (info.name, ·)
    buildTags := containers.filterMap fun info => info.buildTag.map (info.name, ·) }

/-- `InterleavedEventLogger::post`. -/
def post (state : State) (event : TaskEvent) : State × List Write :=
  let forContainer := printForContainer rendering console state
  let forTask := printForTask rendering console state
  match stderr.printStderrClass event with
  | some write => (state, [write])
  | none =>
    match event with
    | .taskStarting task => ({ State.default with task := some task, preamblePending := true }, [])
    | .prerequisitesOnly task =>
        let state :=
          { State.default with prefixWidth := shownWidth rendering task, task := some task }
        (state, printForTask rendering console state (console.nothingMoreToDo task))
    | .taskGraphResolved containers =>
        flushPreambleIfPending rendering console (graphResolved rendering state containers)
    | .imagePullStarting image =>
        (state, (containersForImage state image).flatMap fun container =>
          forContainer container (own "Pulling " ++ console.boldStr image ++ own "..."))
    | .imagePullCompleted image =>
        (state, (containersForImage state image).flatMap fun container =>
          forContainer container (own "Pulled " ++ console.boldStr image ++ own "."))
    | .imageBuildStarting container => (state, forContainer container (own "Building image..."))
    | .imageBuildProgress tag message =>
        match containerForBuildTag rendering state tag with
        | some container =>
            -- each line but the last is ended by the line break of the message
            (state, (splitLines (· = '\n') message).flatMap fun line =>
              printPrefixed rendering console .progress state container
                (lookup state.colors container)
                (own "Image build | " ++ Text.ofStr line.1)
                  ((line.2.map (⟨·, false⟩)).getD newline))
        | none => (state, [])
    | .imageBuildCompleted container => (state, forContainer container (own "Image built."))
    | .dependencyStarting container => (state, forContainer container (own "Starting container..."))
    | .dependencyStarted container => (state, forContainer container (own "Container started."))
    | .containerBecameHealthy container =>
        (state, forContainer container (own "Container became healthy."))
    | .dependencyCompleted container =>
        (state, forContainer container (own "Container ran to completion."))
    | .runningSetupCommand container command index total runIn =>
        let elsewhere := (runIn.map fun runIn => own " in " ++ toText runIn).getD []
        (state, forContainer container
          (own "Running setup command " ++ console.command command ++ own " (" ++
          number index ++ own " of " ++ number total ++ own ")" ++ elsewhere ++ own "..."))
    | .setupCommandOutput container index line =>
        (state, forContainer container
          (own "Setup command " ++ number index ++ own " | " ++ line.map (⟨·, false⟩)))
    | .setupCommandsCompleted container =>
        (state, forContainer container (own "Container has completed all setup commands."))
    | .dependencyExitedUnexpectedly container exitCode =>
        (state, forContainer container (console.exitedUnexpectedly exitCode ++ own "."))
    | .runningTaskContainer container command =>
        let line :=
          match command with
          | some command => own "Running " ++ console.command command ++ own "..."
          | none => own "Running..."
        (state, forContainer container line)
    | .containerOutput container line =>
        let line : Text := line.map (⟨·, false⟩)
        (state, if state.taskContainer = some container then
            printPrefixed rendering result .result state container
              (lookup state.colors container) line newline
          else forContainer container line)
    | .cleanupStarting cause =>
        let (fired, startedCleanup) := fireOnce state.startedCleanup
        ({ state with startedCleanup }, if fired then forTask (console.cleaningUp cause) else [])
    | .containerStopped container => (state, forContainer container (own "Container stopped."))
    | .containerRemoved container => (state, forContainer container (own "Container removed."))
    | .removingNetwork => (state, forTask (own "Removing task network..."))
    | .networkRemoved => (state, forTask (own "Task network removed."))
    | .taskFinished task exitCode duration =>
        (state, forTask (console.formatTaskSummary rendering task exitCode duration))
    | .runEnded _ => flushPreambleIfPending rendering console state
    | .taskFailed task duration =>
        (state, forTask (console.formatTaskFailedSummary rendering task duration))
    | _ => (state, [])

end Interleaved

end Ratect.Ui
