import Ratect.IncludeTrust

/-! # Loading a project's files

`Config::load_from_file_impl` (`config.rs`): the breadth-first walk over `include` entries, from
the root file on, that reads every file once, and the merge of what the files declare.

A state of the walk is a `Traversal`; `visitEntry` takes one include entry, `step` the next one of
the queue, and `traverse` goes round until the queue is empty.  The walk of a finite include graph
ends, but the number of rounds depends on the files, so `load` is given a bound on them. -/

namespace Ratect

open Paths (Path)

/-! ### Resolving paths -/

section resolve

variable (machine : Machine)

/-- `absolute_path`: anchored at the current directory and cleaned. -/
def absolutePath (path : Path) : Except LoadError Path :=
  match machine.currentDir with
  | .error message => .error (.currentDir message)
  | .ok dir => .ok (Paths.clean (Paths.join dir path))

/-- `expand_home_directory`: a path whose first component is `~`, from the home directory. -/
def expandHomeDirectory (path : Text) : Except LoadError (Option Path) :=
  match Paths.ofText path with
  | .normal first :: rest =>
      if first.text = ['~'] then
        match machine.homeDirectory with
        | .error message => .error (.home path message)
        | .ok home => .ok (some (Paths.join home rest))
      else .ok none
  | _ => .ok none

/-- `local_include_target`: where a local include points. -/
def localIncludeTarget (baseDir : Path) (path : Text) : Except LoadError Path := do
  let expanded ← expandHomeDirectory machine path
  return expanded.getD (Paths.join baseDir (Paths.ofText path))

/-- `Boundary::check_contains`: lexical containment of the cleaned path. -/
def Boundary.checkContains (boundary : Boundary) (resolved : Path) : Except LoadError Unit :=
  if Paths.startsWith (Paths.clean resolved) boundary.repoDir then .ok ()
  else .error (.escapes boundary (Paths.clean resolved))

/-- `Boundary::check_contains_canonical`: the same with symlinks resolved. -/
def Boundary.checkContainsCanonical (boundary : Boundary) (resolved : Path) :
    Except LoadError Unit :=
  match machine.canonicalize resolved with
  | .error _ => .error (.unresolvedFile boundary resolved)
  | .ok canonicalResolved =>
      match machine.canonicalize boundary.repoDir with
      | .error _ => .error (.unresolvedCheckout boundary)
      | .ok canonicalRoot =>
          if Paths.startsWith canonicalResolved canonicalRoot then .ok ()
          else .error (.escapesBySymlink boundary resolved)

/-- `boundary_contains`. -/
def boundaryContains (boundary : Option Boundary) (resolved : Path) : Except LoadError Unit :=
  match boundary with
  | none => .ok ()
  | some boundary => do
      boundary.checkContains resolved
      boundary.checkContainsCanonical machine resolved

/-- The lexical check, where there is a boundary. -/
def checkContained (boundary : Option Boundary) (resolved : Path) : Except LoadError Unit :=
  match boundary with
  | none => .ok ()
  | some boundary => boundary.checkContains resolved

/-- `include_file_at`: the file an include written as `asWritten` may read. -/
def includeFileAt (target : Path) (asWritten : Text) (boundary : Option Boundary) :
    Except LoadError Path :=
  if '\x00' ∈ asWritten then .error (.invalidPath asWritten)
  else do
    let resolved ← absolutePath machine target
    checkContained boundary resolved
    if machine.isFile resolved then .ok resolved
    else if machine.fileExists resolved then .error (.notAFile asWritten resolved boundary)
    else .error (.missing asWritten resolved boundary)

/-- `resolve_file_include`. -/
def resolveFileInclude (baseDir : Path) (path : Text) (boundary : Option Boundary) :
    Except LoadError Path := do
  let target ← localIncludeTarget machine baseDir path
  includeFileAt machine target path boundary

/-- The first of several candidates that is a file. -/
def firstCandidate (baseDir : Path) (boundary : Option Boundary) (all : List Text) :
    List Text → Except LoadError Path
  | [] => .error (.noBundleFile all)
  | candidate :: rest => do
      let resolved ← absolutePath machine (Paths.join baseDir (Paths.ofText candidate))
      checkContained boundary resolved
      if machine.isFile resolved then .ok resolved else firstCandidate baseDir boundary all rest

/-- `resolve_include_target`: the file of a Git include in its clone. -/
def resolveIncludeTarget (baseDir : Path) (candidates : List Text) (boundary : Option Boundary) :
    Except LoadError Path :=
  match candidates with
  | [only] => includeFileAt machine (Paths.join baseDir (Paths.ofText only)) only boundary
  | _ => firstCandidate machine baseDir boundary candidates candidates

end resolve

/-! ### File formats -/

/-- ASCII lower case, character by character. -/
def asciiLowercase (t : Text) : Text := t.map Char.toLower

/-- `config_file_format`: the parser a file's extension selects, if it is a known one. -/
def configFileFormat (path : Path) : Option FileFormat :=
  match (Paths.extension path).map asciiLowercase with
  | some ['t', 'o', 'm', 'l'] => some .toml
  | some ['y', 'm', 'l'] => some .yaml
  | some ['y', 'a', 'm', 'l'] => some .yaml
  | _ => none

namespace ConfigFormat

/-- `bundle_candidates`: the files a Git include without a `path` looks for. -/
def bundleCandidates : ConfigFormat → List Text
  | compat => ["batect-bundle.yml".toList]
  | native => ["ratect-bundle.toml".toList, "batect-bundle.yml".toList]

/-- `reads_as_batect`. -/
def readsAsBatect (format : ConfigFormat) (path : Path) : Bool :=
  match format with
  | compat => true
  | native => configFileFormat path == some .yaml

/-- What a parser answers, as a load's result. -/
def unreadable : Except String ConfigFile → Except LoadError ConfigFile
  | .ok file => .ok file
  | .error message => .error (.unreadable message)

/-- `parse`: one file, by the parser its format selects. -/
def parse (format : ConfigFormat) (machine : Machine) (path : Path) (boundary : Option Boundary) :
    Except LoadError ConfigFile :=
  match format with
  | compat => unreadable (machine.readYaml path)
  | native =>
      match configFileFormat path with
      | some .toml => unreadable (machine.readToml path)
      | some .yaml => unreadable (machine.readYaml path)
      | none => .error (.extension (describeOrigin path boundary))

/-- `infer_project_name`: the name of the directory that holds the root file. -/
def inferProjectName (machine : Machine) (root : Path) : Except LoadError String :=
  match (Paths.parent root).bind Paths.fileName with
  | none => .error (.projectNameAtRoot root)
  | some directory =>
      let name := machine.lowercase directory.text
      if isNameComponent name then .ok (String.ofList name)
      else .error (.invalidProjectName name root)

/-- `project_name`. -/
def projectName (format : ConfigFormat) (machine : Machine) (root : Path)
    (declared : Option String) : Except LoadError String :=
  match declared, format with
  | some name, _ => .ok name
  | none, compat => inferProjectName machine root
  | none, native => .error (.missingProjectName root)

end ConfigFormat

/-- `reject_misplaced_ratect_version`. -/
def rejectMisplacedRatectVersion (path : Path) (boundary : Option Boundary) (file : ConfigFile)
    (format : ConfigFormat) (mayDeclare : Bool) : Except LoadError Unit :=
  if file.ratectVersion.isNone then .ok ()
  else if format.readsAsBatect path then .error (.versionInYaml path boundary)
  else if !mayDeclare then .error (.versionInIncluded path boundary)
  else .ok ()

/-- What only the root file may declare. -/
def rejectRootOnlyFields (path : Path) (boundary : Option Boundary) (file : ConfigFile) :
    Except LoadError Unit :=
  if file.projectName.isSome then .error (.projectNameInIncluded path boundary)
  else if file.forbidTelemetry = some true then .error (.telemetryInIncluded path boundary)
  else .ok ()

/-! ### The rules of Git includes -/

/-- `restricting`: the bundle whose permission a Git include needs. -/
def restricting (declaring : Option Bundle) : ConfigFormat → Option Bundle
  | .native => declaring
  | .compat => none

/-- `refusing_nested_git`. -/
def refusingNestedGit (restricted : Option Bundle) : Option Bundle :=
  restricted.filter fun declaring => !declaring.trust.nestedGit

/-- `check_may_declare_git`. -/
def checkMayDeclareGit (restricted : Option Bundle) (repo : Remote) : Except LoadError Unit :=
  match refusingNestedGit restricted with
  | none => .ok ()
  | some declaring => .error (.nestedGit declaring.id repo)

/-- `check_dialect`: the native-only fields of a Git include, in a Batect-format file. -/
def checkDialect (asked : Grants) (reviews : Bool) (declaring : Option Bundle) (declaredIn : String)
    (batectFile : Option BatectFile) (repo : Remote) (format : ConfigFormat) :
    Except LoadError Unit :=
  match batectFile with
  | none => .ok ()
  | some file =>
      let refuse (field remark : String) : Except LoadError Unit :=
        match format with
        | .native => .error (.nativeField declaredIn field repo file)
        | .compat => .error (.compatField (declaring.map Bundle.id) field repo remark)
      if asked.nestedGit.isSome then
        refuse "allow_nested_git_includes"
          "A bundle may declare Git includes of its own here regardless, matching Batect."
      else if reviews then
        refuse "reviewed_ratect_version" "No bundle's written-for version is checked here."
      else .ok ()

/-- `hide_clone_detail`. -/
def hideCloneDetail (message : String) (repo : Remote) (gitRef : String) (candidates : List Text) :
    Option Bundle → LoadError
  | none => .clone candidates repo gitRef message
  | some declaring => .nestedClone repo gitRef declaring.id

/-- The trust each loaded file was loaded under; `none` for an owned file. -/
abbrev EffectiveGrants := List (Path × Option Trust)

namespace EffectiveGrants

/-- What a file was recorded with. -/
def get? (grants : EffectiveGrants) (file : Path) : Option (Option Trust) :=
  (grants.find? fun e => e.1 = file).map Prod.snd

/-- `record`: the first arrival wins. -/
def record (grants : EffectiveGrants) (file : Path) (trust : Option Trust) : EffectiveGrants :=
  if (grants.get? file).isSome then grants else grants ++ [(file, trust)]

/-- The grants that `wanted` has and `effective` has not. -/
def lost (wanted effective : Trust) : List String :=
  (if wanted.hostPaths && !effective.hostPaths then ["allow_host_paths"] else []) ++
    (if wanted.nestedGit && !effective.nestedGit then ["allow_nested_git_includes"] else [])

/-- `check`: a grant that reaches a file loaded with less is refused. -/
def check (grants : EffectiveGrants) (file : Path) (wanted : Trust) (repo : Remote) :
    Except LoadError Unit :=
  match grants.get? file with
  | some none => .ok ()
  | some (some effective) =>
      if (lost wanted effective).isEmpty then .ok ()
      else .error (.lostGrants (lost wanted effective) repo)
  | none =>
      if (lost wanted .NONE).isEmpty then .ok () else .error (.lostGrants (lost wanted .NONE) repo)

end EffectiveGrants

/-! ### The walk -/

/-- One file as loaded. -/
structure LoadedFile where
  path : Path
  file : ConfigFile
  boundary : Option Boundary

/-- An include entry waiting to be visited, with the file that declares it. -/
structure Pending where
  declaringFile : Path
  boundary : Option Boundary
  entry : IncludeEntry

/-- A Git include of a YAML entry file, judged once the walk is over. -/
structure YamlBundleEntry where
  entry : Path
  boundary : Boundary
  entryFile : String
  declaredIn : String
  declaredInBatect : Option BatectFile
  reviewed : Option String

/-- Where each remote and ref was cloned. -/
abbrev Clones := List ((Remote × String) × Path)

/-- A state of the walk. -/
structure Traversal where
  seen : List Path
  effectiveGrants : EffectiveGrants
  gitRepoPaths : Clones
  queue : List Pending
  bundleLocalIncludes : List (Path × Path)
  yamlBundleEntries : List YamlBundleEntry
  loaded : List LoadedFile

/-- The entries a file declares, to be visited with the boundary it was loaded under. -/
def LoadedFile.pending (f : LoadedFile) : List Pending :=
  f.file.includes.map fun entry => ⟨f.path, f.boundary, entry⟩

section walk

variable (machine : Machine) (format : ConfigFormat)

/-- The clone of a remote and ref: the one this load knows, or the cache's. -/
def cloneDir (clones : Clones) (repo : Remote) (gitRef : String) (candidates : List Text)
    (restricted : Option Bundle) : Except LoadError (Path × Clones) :=
  match (clones.find? fun e => e.1 = (repo, gitRef)).map Prod.snd with
  | some dir => .ok (dir, clones)
  | none =>
      match machine.ensureCached repo gitRef with
      | .error message => .error (hideCloneDetail message repo gitRef candidates restricted)
      | .ok dir => .ok (dir, clones ++ [((repo, gitRef), dir)])

/-- The files that a Git include may name. -/
def gitCandidates (format : ConfigFormat) : Option Text → List Text
  | some path => [path]
  | none => format.bundleCandidates

/-- Where the declaring file sits if it is Batect-format. -/
def declaredInBatect (root : Path) (p : Pending) : Option BatectFile :=
  if format.readsAsBatect p.declaringFile then
    some (.of p.boundary.isSome (format.readsAsBatect root))
  else none

/-- The directory that a file's local includes start from. -/
def containingDir (file : Path) : Path := (Paths.parent file).getD []

/-- The file an entry resolves to and the boundary it carries, before that is checked. -/
def resolveEntry (root : Path) (clones : Clones) (p : Pending) :
    Except LoadError (Path × Option Boundary × Clones) :=
  match p.entry with
  | .file path => do
      let resolved ← resolveFileInclude machine (containingDir p.declaringFile) path p.boundary
      return (resolved, p.boundary, clones)
  | .git repo gitRef path allowHostPaths allowNestedGitIncludes reviewed => do
      let asked : Grants := ⟨allowHostPaths, allowNestedGitIncludes⟩
      let declaring := p.boundary.map Boundary.bundle
      checkDialect asked reviewed.isSome declaring (describeOrigin p.declaringFile p.boundary)
        (declaredInBatect format root p) repo format
      let restricted := restricting declaring format
      checkMayDeclareGit restricted repo
      let candidates := gitCandidates format path
      let (repoDir, clones) ← cloneDir machine clones repo gitRef candidates restricted
      let boundary : Boundary := ⟨repoDir, .granted declaring ⟨repo, gitRef⟩ asked⟩
      let resolved ← resolveIncludeTarget machine repoDir candidates (some boundary)
      return (resolved, some boundary, clones)

/-- The version a reviewer named, checked to be one. -/
def parseReviewed (reviewed : Option String) (boundary : Boundary) (declaredIn : String) :
    Except LoadError Unit :=
  match reviewed with
  | none => .ok ()
  | some version =>
      match machine.parseVersion version with
      | .ok () => .ok ()
      | .error message => .error (.invalidReviewed boundary.bundle.id declaredIn message)

/-- A refusal of the written-for checks, as a load's result. -/
def refusedWrittenFor {α : Type} : Except String α → Except LoadError α
  | .ok a => .ok a
  | .error message => .error (.writtenFor message)

/-- `check_bundle_entry`: a TOML entry file is judged now, a YAML one once the walk is over. -/
def checkBundleEntry (resolved : Path) (boundary : Boundary) (declaredIn : String)
    (batect : Option BatectFile) (reviewed : Option String) (running : String) :
    Except LoadError (List YamlBundleEntry) := do
  parseReviewed machine reviewed boundary declaredIn
  let entryFile := boundary.describe resolved
  let written ← refusedWrittenFor (machine.readWrittenFor resolved)
  match written with
  | none => return []
  | some .yamlRoot => return [⟨resolved, boundary, entryFile, declaredIn, batect, reviewed⟩]
  | some writtenFor => do
      refusedWrittenFor (machine.checkBundle running
        ⟨entryFile, declaredIn, batect, writtenFor, none, reviewed, boundary.bundle.id, resolved⟩)
      return []

/-- The written-for check of one visited entry: of Git includes, where a version is running. -/
def checkEntryWrittenFor (running : Option String) (root : Path) (p : Pending) (resolved : Path)
    (boundary : Option Boundary) : Except LoadError (List YamlBundleEntry) :=
  match running, p.entry, boundary with
  | some running, .git _ _ _ _ _ reviewed, some boundary =>
      checkBundleEntry machine resolved boundary (describeOrigin p.declaringFile p.boundary)
        (declaredInBatect format root p) reviewed running
  | _, _, _ => .ok []

/-- The remote a refusal of a lost grant names. -/
def grantRepo (entry : IncludeEntry) (boundary : Option Boundary) : Option Remote :=
  match entry with
  | .git repo _ _ _ _ _ => some repo
  | .file _ => boundary.map fun b => b.bundle.id.remote

/-- An entry that reaches a file already loaded: whatever trust it carries must not be lost. -/
def checkGrants (grants : EffectiveGrants) (resolved : Path) (entry : IncludeEntry)
    (boundary : Option Boundary) : Except LoadError Unit :=
  match grantRepo entry boundary, boundary.map fun b => b.bundle.trust with
  | some repo, some wanted => grants.check resolved wanted repo
  | _, _ => .ok ()

/-- A file reached for the first time is read and checked. -/
def readIncluded (resolved : Path) (boundary : Option Boundary) (entry : IncludeEntry) :
    Except LoadError LoadedFile := do
  let file ← format.parse machine resolved boundary
  rejectMisplacedRatectVersion resolved boundary file format
    (match entry with
      | .git .. => true
      | .file _ => false)
  rejectRootOnlyFields resolved boundary file
  return ⟨resolved, file, boundary⟩

/-- The local includes of bundles, with the one just visited. -/
def noteLocalInclude (t : Traversal) (p : Pending) (resolved : Path) : List (Path × Path) :=
  match p.entry, p.boundary with
  | .file _, some _ => t.bundleLocalIncludes ++ [(p.declaringFile, resolved)]
  | _, _ => t.bundleLocalIncludes

/-- One include entry. -/
def visitEntry (running : Option String) (root : Path) (t : Traversal) (p : Pending) :
    Except LoadError Traversal := do
  let (resolved, boundary, clones) ← resolveEntry machine format root t.gitRepoPaths p
  boundaryContains machine boundary resolved
  let yaml ← checkEntryWrittenFor machine format running root p resolved boundary
  let noted : Traversal :=
    { t with
      gitRepoPaths := clones
      bundleLocalIncludes := noteLocalInclude t p resolved
      yamlBundleEntries := t.yamlBundleEntries ++ yaml }
  if resolved ∈ t.seen then do
    checkGrants t.effectiveGrants resolved p.entry boundary
    return noted
  else do
    let file ← readIncluded machine format resolved boundary p.entry
    return { noted with
      seen := t.seen ++ [resolved]
      effectiveGrants := t.effectiveGrants.record resolved (boundary.map fun b => b.bundle.trust)
      queue := t.queue ++ file.pending
      loaded := t.loaded ++ [file] }

/-- One round: the next entry of the queue, or the end. -/
def traverseStep (running : Option String) (root : Path) (t : Traversal) :
    Except LoadError (Traversal ⊕ Traversal) :=
  match t.queue with
  | [] => .ok (.inr t)
  | p :: queue => (visitEntry machine format running root { t with queue := queue } p).map .inl

/-- The state after the root file is read. -/
def startTraversal (root : LoadedFile) : Traversal where
  seen := [root.path]
  effectiveGrants := []
  gitRepoPaths := []
  queue := root.pending
  bundleLocalIncludes := []
  yamlBundleEntries := []
  loaded := [root]

/-- The root file, read and checked.  It is parsed by the path given and kept by its absolute
one. -/
def readRoot (path : Path) : Except LoadError LoadedFile := do
  let root ← absolutePath machine path
  let file ← format.parse machine path none
  rejectMisplacedRatectVersion path none file format true
  return ⟨root, file, none⟩

/-- The walk from the root file, over at most so many entries. -/
def traverse (running : Option String) (rounds : ℕ) (root : LoadedFile) :
    Option (Except LoadError Traversal) :=
  Loop.run (traverseStep machine format running root.path) rounds (startTraversal root)

end walk

/-! ### A machine in memory -/

/-- The file at a path, as its parser reads it. -/
def readInMemory (files : List (Path × ConfigFile)) (path : Path) : Except String ConfigFile :=
  match files.find? fun e => e.1 = path with
  | none => .error s!"Failed to open config file {debugPath path}"
  | some e => .ok e.2

/-- A machine whose files and clones are given and whose file system holds no symlink. -/
def Machine.inMemory (dir home : Path) (files : List (Path × ConfigFile))
    (clones : Clones) : Machine where
  currentDir := .ok dir
  homeDirectory := .ok home
  isFile path := files.any fun e => e.1 = path
  fileExists path := files.any fun e => path.isPrefixOf e.1
  canonicalize path := if files.any fun e => path.isPrefixOf e.1 then .ok path else .error .notFound
  readYaml := readInMemory files
  readToml := readInMemory files
  ensureCached repo gitRef :=
    match clones.find? fun e => e.1 = (repo, gitRef) with
    | none => .error "Failed to clone"
    | some e => .ok e.2
  cachedWorkingCopy repo gitRef := (clones.find? fun e => e.1 = (repo, gitRef)).map Prod.snd
  readWrittenFor _ := .ok (some .unmarked)
  parseVersion _ := .ok ()
  checkBundle _ _ := .ok ()
  lowercase := asciiLowercase

end Ratect
