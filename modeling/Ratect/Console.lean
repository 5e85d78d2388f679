import Ratect.Text

/-! # What is printed, and the console it is printed on

A `Text` is what every console prints.  Each of its characters carries where it is from: written by
the program itself, or out of a string it was given.  The mark is only kept, never read: without it
a `Text` is the string the program prints.  A string goes in by `toText`, which escapes every
control character, or by `Text.ofStr`, which keeps line breaks and tabs. -/

namespace Ratect.Ui

abbrev Str := List Char

/-- A character, and whether the program wrote it itself. -/
structure Glyph where
  char : Char
  own : Bool
deriving DecidableEq

abbrev Text := List Glyph

/-- The program's own text: a literal, or a number. -/
def own (literal : String) : Text := literal.toList.map (⟨·, true⟩)

/-- `ToText` of a number. -/
def number (n : ℕ) : Text := own (toString n)

/-- `ToText` of a string: a name or a value has no lines of its own. -/
def toText (value : Str) : Text := (printable value).map (⟨·, false⟩)

/-- `Text::from`: a whole message, with its line breaks and tabs. -/
def Text.ofStr (value : Str) : Text :=
  (escapeControls value fun c => c ≠ '\n' && c ≠ '\t').map (⟨·, false⟩)

/-- `Text::join`. -/
def Text.join (items : List Text) (separator : String) : Text :=
  (items.intersperse (own separator)).flatten

/-- `split`: the lines, and what ended each of them. -/
def splitLines {α : Type} (isBreak : α → Bool) : List α → List (List α × Option α)
  | [] => [([], none)]
  | c :: rest =>
      if isBreak c then ([], some c) :: splitLines isBreak rest
      else
        match splitLines isBreak rest with
        | [] => [([c], none)]
        | (line, ending) :: lines => (c :: line, ending) :: lines

def Glyph.isBreak (g : Glyph) : Bool := g.char = '\n'

/-- The line break the program ends a line with. -/
def newline : Glyph := ⟨'\n', true⟩

inductive Color where
  | red
  | green
  | yellow
  | blue
  | magenta
  | cyan
deriving DecidableEq

def Color.ansiCode : Color → String
  | .red => "31"
  | .green => "32"
  | .yellow => "33"
  | .blue => "34"
  | .magenta => "35"
  | .cyan => "36"

/-- A console: whether it is coloured, and whether it writes to a terminal in raw mode now. -/
structure Console where
  colorEnabled : Bool
  rawTerminal : Bool

/-- `\x1b[<code>m`. -/
def sgr (code : String) : Text := own ("\x1b[" ++ code ++ "m")

namespace Console

variable (console : Console)

/-- `styled`: one span a line. -/
def styled (code : String) (text : Text) : Text :=
  if console.colorEnabled then
    (splitLines Glyph.isBreak text).flatMap fun line =>
      (if line.1 = [] then [] else sgr code ++ line.1 ++ sgr "0") ++ line.2.toList
  else text

def bold (text : Text) : Text := console.styled "1" text

def boldColored (color : Color) (text : Text) : Text := console.styled ("1;" ++ color.ansiCode) text

end Console

/-- `line_endings`: each line feed after anything but a carriage return gets one. -/
def lineEndings : Bool → Text → Text
  | _, [] => []
  | afterReturn, g :: rest =>
      (if g.char = '\n' ∧ afterReturn = false then [⟨'\r', true⟩] else []) ++
        g :: lineEndings (g.char = '\r') rest

/-- The consoles a logger writes to. -/
inductive Stream where
  | progress
  | stderr
  | result
deriving DecidableEq

/-- One write. -/
structure Write where
  stream : Stream
  text : Text

namespace Console

variable (console : Console)

/-- The text as it reaches the writer. -/
def written (text : Text) : Text := if console.rawTerminal then lineEndings false text else text

def print (stream : Stream) (text : Text) : Write := ⟨stream, console.written text⟩

/-- `println`, of a line that `ending` ends. -/
def printlnEnding (stream : Stream) (line : Text) (ending : Glyph) : Write :=
  console.print stream (line ++ [ending])

def println (stream : Stream) (line : Text) : Write := console.printlnEnding stream line newline

/-! ### Errors, warnings and notices -/

def error (message : Text) : Write :=
  console.println .stderr (console.boldColored .red (own "Error:") ++ own " " ++ message)

def warning (message : Text) : Write :=
  console.println .stderr (console.boldColored .yellow (own "Warning:") ++ own " " ++ message)

def notice (message : Text) : Write := console.println .stderr message

end Console

/-! ### Events -/

/-- `CleanupCause`. -/
inductive CleanupCause where
  | exited (task : Str) (exitCode : ℤ)
  | imagePullFailed (container : Str)
  | imageBuildFailed (container : Str)
  | createFailed (container : Str)
  | startFailed (container : Str)
  | notHealthy (container : Str)
  | setupCommandExited (container : Str) (index : ℕ) (exitCode : ℤ)
  | setupCommandNotRun (container : Str) (index : ℕ)
  | dependencyExited (container : Str) (exitCode : ℤ)
  | failed (task : Str)
deriving DecidableEq

/-- `TaskContainerInfo`. -/
structure TaskContainerInfo where
  name : Str
  image : Option Str
  buildTag : Option Str
  dependencies : List Str
  hasSetupCommands : Bool
  isTaskContainer : Bool
deriving DecidableEq

/-- `TaskEvent`; a duration is in nanoseconds. -/
inductive TaskEvent where
  | taskStarting (task : Str)
  | prerequisitesOnly (task : Str)
  | taskGraphResolved (containers : List TaskContainerInfo)
  | taskFinished (task : Str) (exitCode : ℤ) (duration : ℕ)
  | imagePullStarting (image : Str)
  | imagePullProgress (image message : Str)
  | imagePullCompleted (image : Str)
  | imageBuildStarting (container : Str)
  | imageBuildProgress (tag message : Str)
  | imageBuildCompleted (container : Str)
  | imageResolved (container : Str)
  | containerCreating (container : Str)
  | containerCreated (container : Str)
  | dependencyStarting (container : Str)
  | dependencyStarted (container : Str)
  | containerBecameHealthy (container : Str)
  | dependencyCompleted (container : Str)
  | runningSetupCommand (container command : Str) (index total : ℕ) (runIn : Option Str)
  | setupCommandsCompleted (container : Str)
  | dependencyExitedUnexpectedly (container : Str) (exitCode : ℤ)
  | runningTaskContainer (container : Str) (command : Option Str)
  | cleanupStarting (cause : Option CleanupCause)
  | cleanupFinished
  | containerStopped (container : Str)
  | containerRemoved (container : Str)
  | removingNetwork
  | networkRemoved
  | runEnded (task : Str)
  | taskFailed (task : Str) (duration : ℕ)
  | containerOutput (container line : Str)
  | setupCommandOutput (container : Str) (index : ℕ) (line : Str)
  | notice (message : Text)
  | warning (message : Text)
  | error (message : Text)
deriving DecidableEq

/-- `print_stderr_class`. -/
def Console.printStderrClass (console : Console) : TaskEvent → Option Write
  | .error message => some (console.error message)
  | .warning message => some (console.warning message)
  | .notice message => some (console.notice message)
  | _ => none

/-! ### What the loggers share -/

/-- What the loggers take from elsewhere: how a duration prints, how wide a character and a string
are, and the order a hash map is gone through. -/
structure Rendering where
  formatDuration : ℕ → Str
  charWidth : Char → ℕ
  strWidth : Str → ℕ
  hashOrder : List (Str × Str) → List (Str × Str)

/-- `OnceFlag::fire_once`. -/
def fireOnce (flag : Bool) : Bool × Bool := (!flag, true)

namespace Console

variable (console : Console)

/-- A name or a value of the user's own, in bold. -/
def boldStr (value : Str) : Text := console.bold (toText value)

/-- An exit code, in bold. -/
def boldCode (exitCode : ℤ) : Text := console.boldStr (toString exitCode).toList

/-- `cleaning_up`. -/
def cleaningUp : Option CleanupCause → Text
  | none => own "Cleaning up..."
  | some cause => own "Cleaning up after " ++ after cause ++ own "..."
where
  after : CleanupCause → Text
  | .exited task exitCode =>
      console.boldStr task ++ own " exited with code " ++ console.boldCode exitCode
  | .imagePullFailed container => console.boldStr container ++ own "'s image failed to pull"
  | .imageBuildFailed container => console.boldStr container ++ own "'s image failed to build"
  | .createFailed container => console.boldStr container ++ own " failed to be created"
  | .startFailed container => console.boldStr container ++ own " failed to start"
  | .notHealthy container => console.boldStr container ++ own " did not become healthy"
  | .setupCommandExited container index exitCode =>
      console.boldStr container ++ own "'s setup command " ++ number index ++
        own " exited with code " ++
        console.boldCode exitCode
  | .setupCommandNotRun container index =>
      console.boldStr container ++ own "'s setup command " ++ number index ++
        own " could not be run"
  | .dependencyExited container exitCode =>
      console.boldStr container ++ own " exited with code " ++ console.boldCode exitCode
  | .failed task => console.boldStr task ++ own " failed"

/-- `command`: it keeps its lines. -/
def command (command : Str) : Text := console.bold (Text.ofStr command)

/-- `nothing_more_to_do`. -/
def nothingMoreToDo (task : Str) : Text :=
  own "The task " ++ console.boldStr task ++
    own " only defines prerequisite tasks, nothing more to do."

/-- `format_task_failed_summary`. -/
def formatTaskFailedSummary (rendering : Rendering) (task : Str) (duration : ℕ) : Text :=
  console.boldStr task ++ own " failed after " ++
    toText (rendering.formatDuration duration) ++ own "."

/-- `format_task_summary`. -/
def formatTaskSummary (rendering : Rendering) (task : Str) (exitCode : ℤ) (duration : ℕ) : Text :=
  console.boldStr task ++ own " finished with exit code " ++
    console.boldColored (if exitCode = 0 then .green else .red)
      (toText (toString exitCode).toList) ++ own " in " ++
    toText (rendering.formatDuration duration) ++ own "."

/-- `exited_unexpectedly`. -/
def exitedUnexpectedly (exitCode : ℤ) : Text :=
  own "exited unexpectedly with exit code " ++ console.boldCode exitCode

end Console

end Ratect.Ui
