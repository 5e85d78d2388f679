import Ratect.Console

/-! # The `fancy` logger

One line for each container of the task, repainted in place while the task starts; then one line
that counts down what cleanup has left to remove.  `post` is the logger's state after an event, and
what it writes. -/

namespace Ratect.Ui.Fancy

/-- `Stage`: where a container is on its way up. -/
inductive Stage where
  | pending
  | pulling (status : Option Str)
  | building (line : Option Str)
  | imageBuilt
  | creating
  | waitingForDependencies (remaining : List Str)
  | startingContainer
  | waitingToBecomeHealthy
  | aboutToRunSetupCommands
  | runningSetupCommand (command : Str) (index total : ℕ) (runIn : Option Str)
  | ready
  | runningCommand (command : Option Str)
  | exitedUnexpectedly (exitCode : ℤ)
deriving DecidableEq

/-- `ContainerLine`. -/
structure ContainerLine where
  info : TaskContainerInfo
  stage : Stage
deriving DecidableEq

/-- `fancy.rs`'s `State`; a set of names is the list of its members. -/
structure State where
  lines : List ContainerLine
  paintedLines : ℕ
  paintedWidth : Option ℕ
  lastRendered : Option Str
  keepUpdatingStartup : Bool
  createdContainers : List Str
  ready : List Str
  removingNetwork : Bool
  cleanupShown : Bool
  cleanupLive : Bool
  cleanupWidth : Option ℕ
  separatorOwed : Bool
  printedATask : Bool
deriving DecidableEq

def State.default : State where
  lines := []
  paintedLines := 0
  paintedWidth := none
  lastRendered := none
  keepUpdatingStartup := false
  createdContainers := []
  ready := []
  removingNetwork := false
  cleanupShown := false
  cleanupLive := false
  cleanupWidth := none
  separatorOwed := false
  printedATask := false

/-! ### The lines -/

namespace State

variable (state : State)

/-- `waiting_for`. -/
def waitingFor (info : TaskContainerInfo) : Stage :=
  .waitingForDependencies (info.dependencies.filter (· ∉ state.ready))

/-- `start_waiting`. -/
def startWaiting (startsWaiting : ContainerLine → Bool) : State :=
  { state with
    lines := state.lines.map fun line =>
      if startsWaiting line then { line with stage := state.waitingFor line.info } else line }

/-- `line_mut`: the first line of `container`, changed. -/
def setStage (container : Str) (stage : Stage) : State :=
  { state with
    lines := state.lines.modify (state.lines.findIdx (·.info.name = container)) fun line =>
      { line with stage } }

/-- A line that waits for `container` no longer does. -/
def drain (container : Str) (line : ContainerLine) : ContainerLine :=
  match line.stage with
  | .waitingForDependencies remaining =>
      { line with stage := .waitingForDependencies (remaining.filter (· ≠ container)) }
  | _ => line

/-- Adding to a sorted set. -/
def insertName (name : Str) (names : List Str) : List Str :=
  if name ∈ names then names else names.orderedInsert (· ≤ ·) name

/-- `mark_ready`. -/
def markReady (container : Str) : State :=
  let state := state.setStage container .ready
  { state with
    lines := state.lines.map (drain container), ready := insertName container state.ready }

end State

section text

variable (console : Console)

/-- `names_list`. -/
def namesList (names : List Str) : Text :=
  let names := names.map console.boldStr
  match names.getLast? with
  | none => []
  | some last =>
      if names.dropLast = [] then last else Text.join names.dropLast ", " ++ own " and " ++ last

/-- Line breaks and tabs are spaces. -/
def flat (c : Char) : Char := if c = '\n' ∨ c = '\r' ∨ c = '\t' then ' ' else c

/-- `description`. -/
def ContainerLine.description (line : ContainerLine) : Text :=
  match line.stage with
  | .pending =>
      match line.info.image, line.info.buildTag with
      | some image, _ => own "ready to pull image " ++ console.boldStr image
      | none, some _ => own "ready to build image"
      | none, none => own "ready"
  | .pulling none =>
      match line.info.image with
      | some image => own "pulling image " ++ console.boldStr image ++ own "..."
      | none => own "pulling image..."
  | .pulling (some status) =>
      match line.info.image with
      | some image => own "pulling " ++ console.boldStr image ++ own ": " ++ toText status
      | none => own "pulling image: " ++ toText status
  | .building none => own "building image..."
  | .building (some line) => own "building image: " ++ toText (line.map flat)
  | .imageBuilt => own "image built, ready to create container"
  | .creating => own "creating container..."
  | .waitingForDependencies remaining =>
      if remaining = [] then own "ready to start"
      else own "waiting for " ++
        (if remaining.length = 1 then own "dependency" else own "dependencies") ++ own " " ++
        namesList console remaining ++ own " to be ready..."
  | .startingContainer => own "starting container..."
  | .waitingToBecomeHealthy => own "container started, waiting for it to become healthy..."
  | .aboutToRunSetupCommands => own "running setup commands..."
  | .runningSetupCommand command index total runIn =>
      let elsewhere := (runIn.map fun runIn => own " in " ++ console.boldStr runIn).getD []
      own "running setup command " ++ console.command command ++ own " (" ++
        number index ++ own " of " ++
        number total ++ own ")" ++ elsewhere ++ own "..."
  | .ready => own "ready"
  | .runningCommand (some command) => own "running " ++ console.command command
  | .runningCommand none => own "running"
  | .exitedUnexpectedly exitCode => console.exitedUnexpectedly exitCode

/-- `render`. -/
def ContainerLine.render (line : ContainerLine) : Text :=
  console.boldStr line.info.name ++ own ": " ++ line.description console

end text

/-- `is_blank_build_line`. -/
def isBlankBuildLine : Str → Bool
  | '#' :: number => !number.isEmpty && number.all Char.isDigit
  | message => message.isEmpty

/-! ### One row -/

section row

variable (charWidth : Char → ℕ)

/-- `display_width`, in an escape sequence or out of one. -/
def displayWidthFrom : Bool → Text → ℕ
  | _, [] => 0
  | true, g :: rest => displayWidthFrom (!g.char.isAlpha) rest
  | false, g :: rest =>
      if g.char = '\x1b' then displayWidthFrom true rest
      else charWidth g.char + displayWidthFrom false rest

def displayWidth (text : Text) : ℕ := displayWidthFrom charWidth false text

/-- The variables of the loop of `clip_to_width`. -/
structure Clip where
  out : Text
  held : Text
  keptAny : Bool
  keptWidth : ℕ

/-- The loop of `clip_to_width`, in an escape sequence or out of one. -/
def clipFrom (keep : ℕ) : Bool → Clip → Text → Clip
  | _, clip, [] => clip
  | true, clip, g :: rest =>
      clipFrom keep (!g.char.isAlpha) { clip with held := clip.held ++ [g] } rest
  | false, clip, g :: rest =>
      if g.char = '\x1b' then clipFrom keep true { clip with held := clip.held ++ [g] } rest
      else if keep < clip.keptWidth + charWidth g.char then clip
      else clipFrom keep false
        ⟨clip.out ++ clip.held ++ [g], [], true, clip.keptWidth + charWidth g.char⟩ rest

/-- The text from its last escape on. -/
def lastEscape : Text → Option Text
  | [] => none
  | g :: rest =>
      match lastEscape rest with
      | some escape => some escape
      | none => if g.char = '\x1b' then some (g :: rest) else none

/-- `clip_to_width`. -/
def clipToWidth (text : Text) : Option ℕ → Text
  | none => text
  | some width =>
      if displayWidth charWidth text ≤ width then text
      else
        let clip := clipFrom charWidth (width - 3) false ⟨[], [], false, 0⟩ text
        let out :=
          if clip.keptAny then clip.out ++ own "..." ++ clip.held
          else clip.out ++ clip.held ++ (own "...").take (min width 3)
        match lastEscape out with
        | some escape =>
            if (escape.map (·.char)).take 4 = "\x1b[0m".toList then out else out ++ sgr "0"
        | none => out

/-- `fit_row`. -/
def fitRow (text : Text) (width : Option ℕ) : Text :=
  clipToWidth charWidth (text.map fun g => { g with char := flat g.char }) width

end row

/-! ### The order of the lines -/

/-- `by_name`: what a map of the containers holds, by name. -/
def byName (containers : List TaskContainerInfo) : List TaskContainerInfo :=
  let names := (containers.map (·.name)).dedup.mergeSort fun a b => decide (a ≤ b)
  names.filterMap fun name => containers.reverse.find? (·.name = name)

/-- `visit`.  A visit takes its container out of `byName`, so no more visits nest than it has
containers. -/
def visit : ℕ → Str → List TaskContainerInfo × List TaskContainerInfo →
    List TaskContainerInfo × List TaskContainerInfo
  | 0, _, state => state
  | fuel + 1, name, (byName, ordered) =>
      match byName.find? (·.name = name) with
      | none => (byName, ordered)
      | some info =>
          let (byName, ordered) :=
            info.dependencies.foldl (fun state dependency => visit fuel dependency state)
            (byName.filter (·.name ≠ name), ordered)
          (byName, ordered ++ [info])

/-- `dependency_post_order`. -/
def dependencyPostOrder (containers : List TaskContainerInfo) : List TaskContainerInfo :=
  let (rest, ordered) :=
    match containers.find? (·.isTaskContainer) with
    | some root => visit (containers.length + 1) root.name (byName containers, [])
    | none => (byName containers, [])
  ordered ++ rest

/-! ### Painting -/

/-- `\r\x1b[2K`. -/
def clearRow : Text := own "\r\x1b[2K"

/-- `\x1b[<n>A`. -/
def cursorUp (n : ℕ) : Text := own ("\x1b[" ++ toString n ++ "A")

section paint

variable (rendering : Rendering) (console : Console) (width : Option ℕ)

/-- `repaint_startup`. -/
def repaintStartup (state : State) : State × List Write :=
  if state.lines = [] then (state, [])
  else
    let rendered := state.lines.flatMap fun line =>
      clearRow ++ fitRow rendering.charWidth (line.render console) width ++ own "\n"
    if state.lastRendered = some (rendered.map Glyph.char) then
      ({ state with paintedWidth := width }, [])
    else
      let lead :=
        if 0 < state.paintedLines then
          if state.paintedWidth = width then cursorUp state.paintedLines else own "\n"
        else []
      ({ state with
          paintedLines := state.lines.length
          paintedWidth := width
          lastRendered := some (rendered.map Glyph.char) },
        [console.print .progress (lead ++ rendered)])

/-- `cleanup_text`. -/
def cleanupText (state : State) : Text :=
  if state.createdContainers ≠ [] then
    let count := state.createdContainers.length
    own "Cleaning up: " ++ number count ++ own " container" ++
      (if count = 1 then [] else own "s") ++ own " (" ++
      namesList console state.createdContainers ++ own ") left to remove..."
  else if state.removingNetwork then own "Cleaning up: removing task network..."
  else own "Cleaning up..."

/-- `repaint_cleanup`. -/
def repaintCleanup (state : State) : State × List Write :=
  let lead :=
    if state.cleanupShown then
      if state.cleanupWidth = width then cursorUp 1 ++ clearRow else own "\n"
    else own "\n"
  let separatorOwed := state.cleanupShown && state.separatorOwed
  ({ state with separatorOwed, cleanupShown := true, cleanupWidth := width },
    [console.print .progress
      (lead ++ fitRow rendering.charWidth (cleanupText console state) width ++ own "\n")])

/-- `clear_cleanup_line`. -/
def clearCleanupLine (state : State) : State × List Write :=
  if state.cleanupShown then
    ({ state with cleanupShown := false },
      if state.cleanupWidth = width then [console.print .progress (cursorUp 1 ++ clearRow)]
      else [console.println .progress []])
  else (state, [])

/-- `pay_separator`. -/
def paySeparator (state : State) : State × List Write :=
  ({ state with separatorOwed := false },
    if state.separatorOwed then [console.println .progress []] else [])

end paint

/-! ### Events -/

section post

variable (rendering : Rendering) (console stderr : Console)
    (stderrOnScreen : Bool) (width : Option ℕ)

/-- What a startup event does to the lines; nothing for any other event. -/
def startupLines (state : State) : TaskEvent → Option State
  | .imagePullStarting image =>
      some { state with lines := state.lines.map fun line =>
        if line.info.image = some image then { line with stage := .pulling none } else line }
  | .imagePullProgress image message =>
      some { state with lines := state.lines.map fun line =>
        if line.info.image = some image then
          { line with stage := .pulling (some message) } else line }
  | .imagePullCompleted image => some (state.startWaiting fun line => line.info.image = some image)
  | .imageBuildStarting container => some (state.setStage container (.building none))
  | .imageBuildProgress tag message =>
      if isBlankBuildLine message then none
      else some { state with lines := state.lines.map fun line =>
        if line.info.buildTag = some tag then
          { line with stage := .building (some message) } else line }
  | .imageBuildCompleted container => some (state.setStage container .imageBuilt)
  | .imageResolved container =>
      some (state.startWaiting fun line => line.info.name = container && line.stage = .pending)
  | .dependencyStarting container => some (state.setStage container .startingContainer)
  | .dependencyStarted container => some (state.setStage container .waitingToBecomeHealthy)
  | .containerBecameHealthy container =>
      match state.lines.find? (·.info.name = container) with
      | some line =>
          if line.info.hasSetupCommands then
            some (state.setStage container .aboutToRunSetupCommands)
          else some (state.markReady container)
      | none => some (state.markReady container)
  | .dependencyCompleted container => some (state.markReady container)
  | .runningSetupCommand container command index total runIn =>
      some (state.setStage container (.runningSetupCommand command index total runIn))
  | .setupCommandsCompleted container => some (state.markReady container)
  | .containerCreating container => some (state.setStage container .creating)
  | _ => none

/-- `println`, before and after the painting of a changed state. -/
def andThen (first : State × List Write) (next : State → State × List Write) : State × List Write :=
  let second := next first.1
  (second.1, first.2 ++ second.2)

/-- The task's first line, after the last task's. -/
def startTask (printedATask : Bool) (line : Text) : List Write :=
  (if printedATask then [console.println .progress []] else []) ++ [console.println .progress line]

/-- The summary, in place of what cleanup left on the screen. -/
def summarize (state : State) (summary : Text) : State × List Write :=
  andThen (andThen (clearCleanupLine console width state) (paySeparator console)) fun state =>
    (state, [console.println .progress summary])

/-- What a line that something else wrote on the screen does to the display. -/
def displaced (state : State) : State :=
  { state with paintedLines := 0, lastRendered := none, cleanupShown := false }

/-- `FancyEventLogger::post`. -/
def post (state : State) (event : TaskEvent) : State × List Write :=
  match stderr.printStderrClass event with
  | some write =>
      andThen (state, [write]) fun state =>
        if stderrOnScreen then
          if state.cleanupLive then repaintCleanup rendering console width (displaced state)
          else (displaced state, [])
        else (state, [])
  | none =>
    match event with
    | .taskStarting task =>
        ({ State.default with printedATask := true, keepUpdatingStartup := true },
          startTask console state.printedATask
            (own "Running " ++ console.boldStr task ++ own "..."))
    | .prerequisitesOnly task =>
        ({ State.default with printedATask := true },
          startTask console state.printedATask (console.nothingMoreToDo task))
    | .taskGraphResolved containers =>
        repaintStartup rendering console width
          { state with
            lines := (dependencyPostOrder containers).map fun info => ⟨info, .pending⟩
            paintedLines := 0
            paintedWidth := none
            lastRendered := none
            keepUpdatingStartup := true }
    | .dependencyExitedUnexpectedly container exitCode =>
        if state.keepUpdatingStartup then
          repaintStartup rendering console width
            (state.setStage container (.exitedUnexpectedly exitCode))
        else
          andThen (state, [console.println .progress
            (toText container ++ own " " ++ console.exitedUnexpectedly exitCode ++ own ".")])
              fun state =>
            let state := { state with cleanupShown := false }
            if state.cleanupLive then repaintCleanup rendering console width state else (state, [])
    | .containerCreated container =>
        andThen
          (if state.keepUpdatingStartup then
            repaintStartup rendering console width
              (state.startWaiting fun line => line.info.name = container)
          else (state, []))
          fun state => ({ state with
            createdContainers := State.insertName container state.createdContainers }, [])
    | .runningTaskContainer container command =>
        let state := { state with separatorOwed := true }
        if state.keepUpdatingStartup then
          andThen (repaintStartup rendering console width
            (state.setStage container (.runningCommand command)))
            fun state => ({ state with keepUpdatingStartup := false },
              [console.println .progress []])
        else (state, [])
    | .runEnded _ => ({ state with keepUpdatingStartup := false }, [])
    | .cleanupStarting _ =>
        repaintCleanup rendering console width { state with cleanupLive := true }
    | .containerRemoved container =>
        let state :=
          { state with createdContainers := state.createdContainers.filter (· ≠ container) }
        if state.cleanupLive then repaintCleanup rendering console width state else (state, [])
    | .removingNetwork =>
        let state := { state with removingNetwork := true }
        if state.cleanupLive then repaintCleanup rendering console width state else (state, [])
    | .cleanupFinished => clearCleanupLine console width { state with cleanupLive := false }
    | .taskFinished task exitCode duration =>
        summarize console width state (console.formatTaskSummary rendering task exitCode duration)
    | .taskFailed task duration =>
        summarize console width state (console.formatTaskFailedSummary rendering task duration)
    | event =>
        if state.keepUpdatingStartup then
          match startupLines state event with
          | some state => repaintStartup rendering console width state
          | none => (state, [])
        else (state, [])

end post

end Ratect.Ui.Fancy
