import Ratect.ConversionChecks
import Ratect.FileNames
import Ratect.IncludeInvariant

/-! # Converting a project

`config convert`'s translation of a Batect-format project into native files (`convert.rs`): each
owned file becomes a TOML file in its own directory, with its include entries rewritten to the
converted files and the values that a native file reads as expressions escaped, and what to check is
listed under the file that it is about.  How a document becomes text is the parameter `render`; a
converted file also keeps what that text is read back as. -/

namespace Ratect

open Paths (Path)

/-! ### Documents -/

theorem isName_nativeConfigFile : Paths.IsName "ratect.toml".toList := by decide

/-- `NATIVE_CONFIG_FILE`. -/
def nativeConfigFile : Paths.Name := ⟨"ratect.toml".toList, isName_nativeConfigFile⟩

/-- `NATIVE_BUNDLE_FILE`. -/
def nativeBundleFile : Text := "ratect-bundle.toml".toList

/-- `BATECT_BUNDLE_FILE`. -/
def batectBundleFile : Text := "batect-bundle.yml".toList

/-- `Document`: one file's configuration as the converted file holds it. -/
structure Document where
  projectName : Option String
  containers : IndexMap String Config.Container
  tasks : IndexMap String Config.Task
  configVariables : Option (IndexMap String Config.ConfigVariable)
  includes : List IncludeEntry
  forbidTelemetry : Option Bool

/-- A volume as it is written, and so read back: always as an object. -/
def Config.VolumeMount.asObject : Config.VolumeMount → Config.VolumeMount
  | .host mount => .host { mount with compact := false }
  | other => other

/-- A container as it is read back. -/
def Config.Container.readBack (container : Config.Container) : Config.Container :=
  { container with volumes := container.volumes.map (List.map Config.VolumeMount.asObject) }

/-- A task as it is read back. -/
def Config.Task.readBack (task : Config.Task) : Config.Task :=
  { task with customise := task.customise.map IndexMap.sorted }

/-- A document as it is read back: `sorted` writes every table in the order of its keys.  The root
declares a version beside it. -/
def Document.readBack (document : Document) (ratectVersion : Option String) : ConfigFile where
  projectName := document.projectName
  containers := (document.containers.mapEntries fun _ container => container.readBack).sorted
  tasks := (document.tasks.mapEntries fun _ task => task.readBack).sorted
  configVariables := document.configVariables.map IndexMap.sorted
  includes := document.includes
  forbidTelemetry := document.forbidTelemetry
  ratectVersion := ratectVersion

/-! ### Errors -/

/-- Why a conversion fails. -/
inductive ConvertError where
  | overwritesItself (source : Path)
  | sameTarget (previous source target : Path)
  | identityBeside (container : String)
  | homeless (container : String)
  | rendering (source : Path) (message : String)
  | noRoot
  | notDeclared (container : String)
  | unresolved (error : LoadError)
  | notReached (target declaring : Path)
  | uncloned (repo : Remote) (gitRef : String)
  | notReachedInClone (file : Path)
  | undeclared (bundle : BundleId)
  | reachedFromNoOwnedFile (bundle : BundleId)
  | unplaced (checks : List (Path × ConversionCheck))
  | unfinished
deriving DecidableEq

/-- The message of an error. -/
def ConvertError.message : ConvertError → String
  | overwritesItself source =>
      s!"Converting '{printablePath source}' would overwrite it with its own " ++
      "conversion: a Batect-format file is YAML whatever its extension, so rename it before converting."
  | sameTarget previous source target => s!"Converting '{printablePath previous}' and " ++
      s!"'{printablePath source}' would both write '{printablePath target}' — rename one of them first."
  | identityBeside container =>
      s!"The container '{container}' has both 'identity' and an enabled " ++
      "'run_as_current_user', and a Batect-format file can't set 'identity'."
  | homeless container =>
      s!"The container '{container}' has 'run_as_current_user.enabled' set to true, but " ++
      "no 'home_directory' was provided, and 'identity' needs one."
  | rendering source message => s!"converting {displayPath source}: {message}"
  | noRoot => "a loaded project has a root file"
  | notDeclared _ => "a container check names a container the load declared"
  | unresolved error => error.message
  | notReached target declaring => s!"the load didn't reach '{displayPath target}' from " ++
      s!"'{displayPath declaring}' — this is a bug; please report it"
  | uncloned repo gitRef =>
      s!"the load left Git include {describeInclude repo gitRef} uncloned — this is a " ++
      "bug; please report it"
  | notReachedInClone file =>
      s!"the load didn't reach '{displayPath file}' in the clone of a Git include — " ++
      "this is a bug; please report it"
  | undeclared bundle =>
      s!"no file declares the Git include {bundle.display} — this is a bug; please report it"
  | reachedFromNoOwnedFile bundle =>
      s!"the Git include {bundle.display} is reached from no owned file — this " ++
      "is a bug; please report it"
  | unplaced _ =>
      "an item to check was placed in no converted file — this is a bug; please report it"
  | unfinished => ""

/-- A failure of the loader's own functions. -/
def ConvertError.ofLoad {α : Type} : Except LoadError α → Except ConvertError α
  | .ok a => .ok a
  | .error e => .error (.unresolved e)

/-! ### Files and their targets -/

/-- The files that the project's owner controls. -/
def LoadedConfig.ownedFiles (loaded : LoadedConfig) : List LoadedFile :=
  loaded.files.filter fun file => file.boundary.isNone

/-- Where the root converts to. -/
def rootTarget (root : Path) : Path :=
  Paths.join ((Paths.parent root).getD []) [.normal nativeConfigFile]

/-- Where each owned file converts to, the root being the first. -/
def targetsOf : List LoadedFile → List Path
  | [] => []
  | root :: includes =>
      rootTarget root.path :: includes.map fun file => Paths.withTomlExtension file.path

/-- The sources and their targets. -/
abbrev Targets := List (Path × Path)

/-- The target of a source. -/
def Targets.get? (targets : Targets) (source : Path) : Option Path :=
  (targets.find? fun e => e.1 = source).map Prod.snd

/-- The clash check over sources and targets, after those seen so far: no file overwrites itself,
and no two have one target. -/
def checkTargets (seen : Targets) : Targets → Except ConvertError Unit
  | [] => .ok ()
  | e :: rest =>
      if e.2 = e.1 then .error (.overwritesItself e.1)
      else
        match seen.find? fun previous => previous.2 = e.2 with
        | some previous => .error (.sameTarget previous.1 e.1 e.2)
        | none => checkTargets (seen ++ [e]) rest

/-! ### Include entries -/

section convert

variable (machine : Machine) (loaded : LoadedConfig)

/-- Where a local include points, as the loader resolves it. -/
def resolveLocal (declaring : Path) (path : Text) : Except ConvertError Path := do
  let target ← ConvertError.ofLoad (localIncludeTarget machine (containingDir declaring) path)
  ConvertError.ofLoad (absolutePath machine target)

/-- The local includes of a file pushed on a stack, the last one on top; none if a Git include comes
among them. -/
def pushLocals (file : Path) :
    List IncludeEntry → List Path → Except ConvertError (Option (List Path))
  | [], stack => .ok (some stack)
  | .git .. :: _, _ => .ok none
  | .file path :: rest, stack => do
      let target ← resolveLocal machine file path
      pushLocals file rest (target :: stack)

/-- The loop of `bundle_declares_git_includes`, over at most so many files. -/
def gitWalk : ℕ → List Path → List Path → Except ConvertError Bool
  | 0, _, _ => .error .unfinished
  | _ + 1, [], _ => .ok false
  | rounds + 1, path :: stack, seen =>
      if path ∈ seen then gitWalk rounds stack seen
      else
        match loaded.files.find? fun file => file.path = path with
        | none => .error (.notReachedInClone path)
        | some file => do
            match ← pushLocals machine path file.file.includes stack with
            | none => return true
            | some stack => gitWalk rounds stack (seen ++ [path])

/-- As many files as the walk can come to: the first, and once for each loaded file those it
includes. -/
def gitWalkRounds : ℕ := (loaded.files.map fun file => file.file.includes.length).sum + 2

/-- `bundle_declares_git_includes`: whether the file that a Git include loads from its clone, or one
that it reaches through local includes, declares a Git include. -/
def bundleDeclaresGitIncludes (clone : Path) (path : Option Text) : Except ConvertError Bool := do
  let start ← ConvertError.ofLoad
    (absolutePath machine (Paths.join clone (Paths.ofText (path.getD batectBundleFile))))
  gitWalk machine loaded (gitWalkRounds loaded) [start] []

/-- The item about a bundle that offers a native file. -/
def offersNativeFileCheck (repo : Remote) (gitRef : String) : ConversionCheck where
  container := none
  kind := .bundleOffersNativeFile
  message :=
    s!"Git include {describeInclude repo gitRef} offers a ratect-bundle.toml, which ratect would load " ++
    "in place of the batect-bundle.yml batect.yml loads — 'path' was set to batect-bundle.yml so the same file " ++
    "loads; remove 'path' to switch to the native one."

/-- The item about a bundle with Git includes of its own. -/
def declaresGitIncludesCheck (repo : Remote) (gitRef : String) : ConversionCheck where
  container := none
  kind := .bundleDeclaresGitIncludes
  message :=
    s!"Git include {describeInclude repo gitRef} declares Git includes of its own, which ratect " ++
    "refuses unless 'allow_nested_git_includes' is set to true on this entry (see " ++
    "https://github.com/or1can/ratect/blob/main/docs/includes.md#nested-git-includes)."

/-- The bundle file that a converted Git include names, and whether that was pinned. -/
def pinnedPath (clone : Path) : Option Text → Option Text × Bool
  | some path => (some path, false)
  | none =>
      if machine.isFile (Paths.join clone (Paths.ofText nativeBundleFile)) then
        (some batectBundleFile, true)
      else (none, false)

/-- `convert_include`: an entry as the converted file declares it, and what to check of it. -/
def convertInclude (targets : Targets) (declaring : Path) :
    IncludeEntry → Except ConvertError (IncludeEntry × List ConversionCheck)
  | .file path => do
      let resolved ← resolveLocal machine declaring path
      match targets.get? resolved with
      | none => .error (.notReached resolved declaring)
      | some target =>
          let name := ((Paths.fileName target).map Paths.Name.text).getD []
          return (.file (Paths.withFileNameText path name), [])
  | .git repo gitRef path hostPaths _ _ => do
      match (loaded.gitClones.find? fun e => e.1 = (repo, gitRef)).map Prod.snd with
      | none => .error (.uncloned repo gitRef)
      | some clone =>
          let pinned := pinnedPath machine clone path
          let nested ← bundleDeclaresGitIncludes machine loaded clone pinned.1
          return (.git repo gitRef pinned.1 hostPaths none none,
            (if pinned.2 then [offersNativeFileCheck repo gitRef] else []) ++
              if nested then [declaresGitIncludesCheck repo gitRef] else [])

/-! ### Containers and their checks -/

variable (unicode : Char → Bool)

/-- A volume as the converted file holds it: the host path of a compact one becomes an
expression. -/
def Config.VolumeMount.converted : Config.VolumeMount → Config.VolumeMount
  | .host mount =>
      if mount.localIsExpression true then .host mount
      else .host { mount with host := Expressions.literalAsExpression unicode mount.host }
  | other => other

/-- `converted_container`. -/
def convertedContainer (name : String) (container : Config.Container) :
    Except ConvertError Config.Container := do
  let image :=
    if imageIsExpression true then container.image else container.image.map Expressions.literalKept
  let volumes := container.volumes.map (List.map (Config.VolumeMount.converted unicode))
  let rest := { container with image := image, volumes := volumes, runAsCurrentUser := none }
  match container.runAsCurrentUser with
  | none => return rest
  | some user =>
      if user.enabled then do
        Except.ensure (container.identity = none) (.identityBeside name)
        match user.homeDirectory with
        | none => .error (.homeless name)
        | some home =>
            return { rest with identity := some ⟨Expressions.literalAsExpression unicode home, []⟩ }
      else return rest

/-- A file declares a Git include of a bundle. -/
def LoadedFile.declares (bundle : BundleId) (file : LoadedFile) : Bool :=
  file.file.includes.any fun
    | .git repo gitRef .. => repo = bundle.remote ∧ gitRef = bundle.gitRef
    | .file _ => false

/-- The file that declares a bundle: an owned one if there is one, and the first of them. -/
def LoadedConfig.declaring (loaded : LoadedConfig) (bundle : BundleId) : Option LoadedFile :=
  let declaring := loaded.files.filter (LoadedFile.declares bundle)
  (declaring.find? fun file => file.boundary.isNone).or declaring.head?

/-- The loop of `owned_file_reaching`, which climbs one bundle in each round. -/
def climbFrom (bundle : BundleId) : ℕ → BundleId → Except ConvertError Path
  | 0, _ => .error (.reachedFromNoOwnedFile bundle)
  | rounds + 1, wanted =>
      match loaded.declaring wanted with
      | none => .error (.undeclared wanted)
      | some file =>
          match file.boundary with
          | none => .ok file.path
          | some boundary => climbFrom bundle rounds boundary.bundle.id

/-- `owned_file_reaching`. -/
def ownedFileReaching (bundle : BundleId) : Except ConvertError Path :=
  climbFrom loaded bundle loaded.files.length bundle

/-- Where one check belongs; none for one that does not apply to a bundle's container. -/
def placeCheck (check : ConversionCheck) : Except ConvertError (Option (Path × ConversionCheck)) :=
  let name := check.container.getD ""
  match loaded.containerBoundaries.get? name with
  | none =>
      match loaded.containerOrigins.get? name with
      | none => .error (.notDeclared name)
      | some origin => .ok (some (origin, check))
  | some boundary =>
      if check.kind ≠ .ungatedTaskContainer then .ok none
      else (ownedFileReaching loaded boundary.bundle.id).map fun file => some (file, check)

/-- `checks_by_file`: the checks of containers, each with the file that it is listed under. -/
def checksByFile : Except ConvertError (List (Path × ConversionCheck)) := do
  let placed ← (conversionChecks unicode loaded.config).mapM (placeCheck loaded)
  return placed.filterMap id

/-! ### The conversion -/

/-- `ConvertedFile`, with what its text is read back as. -/
structure ConvertedFile where
  source : Path
  target : Path
  toml : Text
  checks : List ConversionCheck
  readBack : ConfigFile

/-- One owned file as its document, and what to check of its include entries. -/
def documentOf (targets : Targets) (projectName : Option String) (file : LoadedFile) :
    Except ConvertError (Document × List ConversionCheck) := do
  let includes ← file.file.includes.mapM (convertInclude machine loaded targets file.path)
  let containers ← file.file.containers.mapEntriesM (convertedContainer unicode)
  return (
    { projectName := projectName
      containers := containers
      tasks := file.file.tasks
      configVariables := file.file.configVariables
      includes := includes.map Prod.fst
      forbidTelemetry := file.file.forbidTelemetry },
    includes.flatMap Prod.snd)

variable (render : Document → Option String → Except String Text) (writtenFor : String)

/-- One owned file: the root has the project's name and declares the version it was converted
for. -/
def convertFile (targets : Targets) (placed : List (Path × ConversionCheck)) (isRoot : Bool)
    (file : LoadedFile × Path) : Except ConvertError ConvertedFile := do
  let (document, checks) ← documentOf machine loaded unicode targets
    (if isRoot then some loaded.config.projectName else none) file.1
  let declared := if isRoot then some writtenFor else none
  match render document declared with
  | .error message => .error (.rendering file.1.path message)
  | .ok toml => return {
      source := file.1.path
      target := file.2
      toml := toml
      checks := checks ++ (placed.filter fun e => e.1 = file.1.path).map Prod.snd
      readBack := document.readBack declared }

/-- `convert_project`. -/
def convertProject : Except ConvertError (List ConvertedFile) :=
  match loaded.ownedFiles, targetsOf loaded.ownedFiles with
  | root :: includes, target :: includeTargets => do
      let targets : Targets :=
        (loaded.ownedFiles.map LoadedFile.path).zip (targetsOf loaded.ownedFiles)
      checkTargets [] targets
      let placed ← checksByFile loaded unicode
      let first ← convertFile machine loaded unicode render writtenFor targets
        placed true (root, target)
      let rest ← (includes.zip includeTargets).mapM
        (convertFile machine loaded unicode render writtenFor targets placed false)
      let left := placed.filter fun e => e.1 ∉ loaded.ownedFiles.map LoadedFile.path
      Except.ensure (left = []) (.unplaced left)
      return first :: rest
  | _, _ => .error .noRoot

end convert

end Ratect
