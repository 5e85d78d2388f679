import Ratect.DisplayOrder
import Ratect.IndexMap
import Ratect.LineBuffer

/-! # The output of a build

`BuildKitOutput` (`docker/build_output.rs`) renders BuildKit's status updates as labelled lines.
Besides what the source keeps, an output has a `history` of what was displayed and which line came
from where; nothing reads it.  A panic of the source is `none`. -/

namespace Ratect.BuildOutput

/-- `VertexLog`. -/
structure VertexLog where
  vertex : Text
  msg : List UInt8
deriving DecidableEq

/-- `StatusResponse`. -/
structure StatusResponse where
  vertexes : List Vertex
  logs : List VertexLog
deriving DecidableEq

/-- `Step`. -/
structure Step where
  name : Text := []
  number : Option ℕ := none
  started : Bool := false
  shownCached : Bool := false
  shownError : Bool := false
  lines : LineBuffer := .new
deriving DecidableEq

/-- Why a line of a step is emitted. -/
inductive Origin where
  | header
  | cached
  | log
  | error
deriving DecidableEq

/-- What happens to a step: it is numbered under the name it has, or a text is emitted for it. -/
inductive Event where
  | displayed (digest : Text) (number : ℕ) (name : Text)
  | emitted (digest : Text) (number : ℕ) (origin : Origin) (text : Text)
deriving DecidableEq

/-- `BuildKitOutput`, with what has happened so far. -/
structure BuildKitOutput where
  transcript : Text := []
  steps : IndexMap Text Step := .empty
  lastNumber : ℕ := 0
  history : List Event := []

/-- An output and the lines that are to be returned. -/
abbrev Shown := BuildKitOutput × List Text

/-- A line with its step's label. -/
def labelled (number : ℕ) (part : Text) : Text :=
  if part = [] then '#' :: display number else '#' :: (display number ++ ' ' :: part)

namespace BuildKitOutput

/-- `new`. -/
def new : BuildKitOutput := {}

/-- `entry`: the step of a digest, a new one where there is none. -/
def entry (out : BuildKitOutput) (digest : Text) : Step := (out.steps.get? digest).getD {}

/-- A change through `entry`. -/
def update (out : BuildKitOutput) (digest : Text) (change : Step → Step) : BuildKitOutput :=
  { out with steps := out.steps.insert digest (change (out.entry digest)) }

end BuildKitOutput

/-- `emit`. -/
def emit (digest : Text) (origin : Origin) (text : Text) (shown : Shown) : Option Shown := do
  let step ← shown.1.steps.get? digest
  let number ← step.number
  let added := (text.splitOn '\n').map (labelled number)
  some ({ shown.1 with
      transcript := shown.1.transcript ++ added.flatMap (· ++ ['\n'])
      history := shown.1.history ++ [.emitted digest number origin text] },
    shown.2 ++ added)

/-- `show`. -/
def showStep (digest : Text) (shown : Shown) : Option Shown :=
  let out := shown.1.update digest id
  if (out.entry digest).number.isSome = true then some (out, shown.2)
  else
    let number := out.lastNumber + 1
    let step := out.entry digest
    let numbered := { out.update digest ({ · with number := some number }) with
      lastNumber := number
      history := out.history ++ [.displayed digest number step.name] }
    if step.name ≠ [] then emit digest .header step.name (numbered, shown.2)
    else some (numbered, shown.2)

/-- The lines that a step's buffer completes. -/
def emitLines (digest : Text) (result : LineBuffer × List Text) (shown : Shown) : Option Shown :=
  result.2.foldlM (fun shown line => emit digest .log line shown)
    (shown.1.update digest ({ · with lines := result.1 }), shown.2)

/-- A vertex in the first pass of `push`. -/
def nameStep (out : BuildKitOutput) (vertex : Vertex) : BuildKitOutput :=
  out.update vertex.digest fun step =>
    if vertex.name ≠ [] then { step with name := vertex.name } else step

/-- The vertexes that start a step. -/
def startingVertexes (out : BuildKitOutput) : List Vertex → Option (List Vertex)
  | [] => some []
  | vertex :: vertexes => do
      let starts ←
        (if vertex.started = true then (out.steps.get? vertex.digest).map (!·.started)
          else some false)
      let starting ← startingVertexes out vertexes
      some (if starts = true then vertex :: starting else starting)

/-- A vertex that starts. -/
def startStep (shown : Shown) (vertex : Vertex) : Option Shown := do
  let out := shown.1.update vertex.digest ({ · with started := true })
  let showCached := vertex.cached && !(out.entry vertex.digest).shownCached
  let out :=
    if vertex.cached = true then out.update vertex.digest ({ · with shownCached := true }) else out
  let shown ← showStep vertex.digest (out, shown.2)
  if showCached = true then emit vertex.digest .cached "CACHED".toList shown else some shown

/-- A log. -/
def logStep (shown : Shown) (log : VertexLog) : Option Shown := do
  let shown ← showStep log.vertex shown
  emitLines log.vertex ((shown.1.entry log.vertex).lines.push log.msg) shown

/-- The end of a step's stream. -/
def flushStep (digest : Text) (shown : Shown) : Option Shown :=
  emitLines digest (shown.1.entry digest).lines.flush shown

/-- A vertex in the last pass of `push`. -/
def endStep (shown : Shown) (vertex : Vertex) : Option Shown := do
  let shown ←
    (if vertex.completed = true ∨ vertex.error ≠ [] then flushStep vertex.digest shown
      else some shown)
  if vertex.error ≠ [] then
    let shownError := (shown.1.entry vertex.digest).shownError
    let out := shown.1.update vertex.digest ({ · with shownError := true })
    if shownError = false then
      let shown ← showStep vertex.digest (out, shown.2)
      emit vertex.digest .error ("ERROR: ".toList ++ vertex.error) shown
    else some (out, shown.2)
  else some shown

/-- `push`. -/
def BuildKitOutput.push (out : BuildKitOutput) (status : StatusResponse) : Option Shown := do
  let named := status.vertexes.foldl nameStep out
  let starting ← startingVertexes named status.vertexes
  let ordered ← displayOrder starting
  let shown ← ordered.foldlM startStep (named, [])
  let shown ← status.logs.foldlM logStep shown
  status.vertexes.foldlM endStep shown

/-- The numbered steps, in the order of their numbers. -/
def BuildKitOutput.unfinished (out : BuildKitOutput) : List (ℕ × Text) :=
  (out.steps.entries.filterMap fun entry => entry.2.number.map (·, entry.1)).mergeSort
    fun a b => decide (a.1 < b.1 ∨ a.1 = b.1 ∧ a.2 ≤ b.2)

/-- `finish`. -/
def BuildKitOutput.finish (out : BuildKitOutput) : Option Shown :=
  out.unfinished.foldlM (fun shown entry => flushStep entry.2 shown) (out, [])

/-- Updates one after another, with all lines that they complete. -/
def pushAll : List StatusResponse → BuildKitOutput → Option Shown
  | [], out => some (out, [])
  | status :: updates, out => do
      let (next, lines) ← out.push status
      let (last, more) ← pushAll updates next
      some (last, lines ++ more)

/-- A whole build's updates and the end of its stream. -/
def session (updates : List StatusResponse) : Option Shown := do
  let (out, lines) ← pushAll updates .new
  let (last, rest) ← out.finish
  some (last, lines ++ rest)

/-! ### What has happened -/

/-- The lines of an event. -/
def Event.lines : Event → List Text
  | .displayed _ _ _ => []
  | .emitted _ number _ text => (text.splitOn '\n').map (labelled number)

/-- The step of an event. -/
def Event.digest : Event → Text
  | .displayed digest _ _ => digest
  | .emitted digest _ _ _ => digest

/-- A step and its number, where it is displayed. -/
def Event.display : Event → Option (Text × ℕ)
  | .displayed digest number _ => some (digest, number)
  | .emitted _ _ _ _ => none

/-- The steps with their numbers, in the order in which they were displayed. -/
def displays (history : List Event) : List (Text × ℕ) := history.filterMap Event.display

/-- A text of a step's log. -/
def Event.logText (digest : Text) : Event → Option Text
  | .emitted digest' _ .log text => if digest' = digest then some text else none
  | _ => none

/-- The texts of a step's log, in order. -/
def logTexts (digest : Text) (history : List Event) : List Text :=
  history.filterMap (Event.logText digest)

/-- Something is emitted for a step and this reason. -/
def Event.isFor (digest : Text) (origin : Origin) : Event → Bool
  | .emitted digest' _ origin' _ => decide (digest' = digest ∧ origin' = origin)
  | .displayed _ _ _ => false

/-- How often it is. -/
def emissions (digest : Text) (origin : Origin) (history : List Event) : ℕ :=
  history.countP (Event.isFor digest origin)

/-! ### A step's log -/

/-- What happens to a step's buffer. -/
inductive BufferAction where
  | chunk (bytes : List UInt8)
  | restart
deriving DecidableEq

/-- The actions that an update has for a step: its logs, then an end for each vertex of the step
that is completed or has failed. -/
def StatusResponse.actions (status : StatusResponse) (digest : Text) : List BufferAction :=
  ((status.logs.filter fun log => log.vertex = digest).map fun log => .chunk log.msg) ++
    (status.vertexes.filter fun vertex =>
      vertex.digest = digest ∧ (vertex.completed = true ∨ vertex.error ≠ [])).map fun _ => .restart

/-- The bytes up to the first restart, and those between restarts after it. -/
def segments : List BufferAction → List UInt8 × List (List UInt8)
  | [] => ([], [])
  | .chunk bytes :: actions => (bytes ++ (segments actions).1, (segments actions).2)
  | .restart :: actions => ([], (segments actions).1 :: (segments actions).2)

/-- The framing of a log that is restarted. -/
def framed (actions : List BufferAction) : List Text :=
  LineBuffer.frame (segments actions).1 ++ (segments actions).2.flatMap LineBuffer.frame

end Ratect.BuildOutput
