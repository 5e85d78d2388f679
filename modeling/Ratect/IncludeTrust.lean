import Ratect.Configuration
import Ratect.Loop
import Ratect.Paths

/-! # Boundaries and trust

What a bundle pulled in over Git is contained within and what it may do (`include_trust.rs`): the
grants an include entry asks for, the trust the file it reaches ends up with, and the checks that
both walks over includes make.

`Machine` is what the loader asks of the machine: where it runs, the file system, the YAML and TOML
parsers, the Git cache and the judgement of a bundle's written-for version.  The file system is
read as it stands throughout one load, with every clone the load makes in place. -/

namespace Ratect

open Paths (Path)

/-! ### Naming what an error is about -/

/-- Everything up to and with the first `://`, and the rest. -/
def splitScheme : Text → Option (Text × Text)
  | ':' :: '/' :: '/' :: rest => some ([':', '/', '/'], rest)
  | c :: rest => (splitScheme rest).map fun parts => (c :: parts.1, parts.2)
  | [] => none

/-- `Remote::redacted`: what may hold credentials is left out. -/
def Remote.redacted (remote : Remote) : Text :=
  match splitScheme remote.url.toList with
  | none => remote.url.toList
  | some (head, rest) =>
      if '@' ∈ rest then
        head ++ ['*', '*', '*', '@'] ++ (rest.reverse.takeWhile (· ≠ '@')).reverse
      else remote.url.toList

/-- A remote as a message shows it. -/
def Remote.display (remote : Remote) : String := String.ofList (printable remote.redacted)

/-- `describe_include`. -/
def describeInclude (remote : Remote) (gitRef : String) : String :=
  s!"'{remote.display}' at '{printableString gitRef}'"

/-- A path as a message shows it. -/
def displayPath (path : Path) : String := String.ofList (Paths.toText path)

/-- The same with its control characters escaped. -/
def printablePath (path : Path) : String := String.ofList (printable (Paths.toText path))

/-- A path between double quotes, as `{:?}` writes one whose characters all print. -/
def debugPath (path : Path) : String :=
  let escape (c : Char) : Text :=
    if c = '"' ∨ c = '\\' then ['\\', c] else if isControl c then escapeDebug c else [c]
  String.ofList (['"'] ++ (Paths.toText path).flatMap escape ++ ['"'])

/-- `relative_to`: the shared components dropped, and a `..` for each one of `root` that remains. -/
def relativeTo : Path → Path → Path
  | r :: root, p :: path =>
      if r = p then relativeTo root path else (r :: root).map (fun _ => .parent) ++ p :: path
  | root, path => root.map (fun _ => .parent) ++ path

/-! ### Grants, trust and boundaries -/

/-- What a Git include entry asks for. -/
structure Grants where
  hostPaths : Bool
  nestedGit : Option Bool
deriving DecidableEq, Repr

/-- What a file is loaded under. -/
structure Trust where
  hostPaths : Bool
  nestedGit : Bool
deriving DecidableEq, Repr

/-- Granted nothing. -/
def Trust.NONE : Trust := ⟨false, false⟩

/-- Granted at least as much, field by field. -/
instance : LE Trust :=
  ⟨fun t u => (t.hostPaths = true → u.hostPaths = true) ∧ (t.nestedGit = true → u.nestedGit = true)⟩

instance : DecidableRel (α := Trust) (· ≤ ·) :=
  fun t u => inferInstanceAs (Decidable ((t.hostPaths = true → u.hostPaths = true) ∧
    (t.nestedGit = true → u.nestedGit = true)))

theorem Trust.le_iff {t u : Trust} : t ≤ u ↔
    (t.hostPaths = true → u.hostPaths = true) ∧ (t.nestedGit = true → u.nestedGit = true) :=
  Iff.rfl

instance : PartialOrder Trust where
  le_refl t := ⟨id, id⟩
  le_trans t u v h h' := ⟨h'.1 ∘ h.1, h'.2 ∘ h.2⟩
  le_antisymm t u h h' := by
    obtain ⟨a, b⟩ := t
    obtain ⟨c, d⟩ := u
    have ha : a = c := Bool.eq_iff_iff.mpr ⟨h.1, h'.1⟩
    have hb : b = d := Bool.eq_iff_iff.mpr ⟨h.2, h'.2⟩
    rw [ha, hb]

/-- How a bundle is named: the two things written. -/
structure BundleId where
  remote : Remote
  gitRef : String
deriving DecidableEq, Repr

/-- A bundle as a message shows it. -/
def BundleId.display (id : BundleId) : String := describeInclude id.remote id.gitRef

/-- A bundle: how it is named and what it carries. -/
structure Bundle where
  id : BundleId
  trust : Trust
deriving DecidableEq, Repr

/-- `Bundle::granted`: a grant counts only where an owned file declares the entry. -/
def Bundle.granted (declaring : Option Bundle) (id : BundleId) (asked : Grants) : Bundle where
  id := id
  trust :=
    { hostPaths := asked.hostPaths && declaring.isNone
      nestedGit := asked.nestedGit.getD false && declaring.isNone }

/-- What a bundle's files are contained within, and what they carry. -/
structure Boundary where
  repoDir : Path
  bundle : Bundle
deriving DecidableEq

/-- `Boundary::describe`: a file by its path in the checkout and the bundle. -/
def Boundary.describe (boundary : Boundary) (path : Path) : String :=
  s!"'{printablePath (relativeTo boundary.repoDir (Paths.clean path))}' from the bundle " ++
    boundary.bundle.id.display

/-- `describe_origin`. -/
def describeOrigin (origin : Path) : Option Boundary → String
  | some boundary => boundary.describe origin
  | none => debugPath origin

/-- `describe_file`. -/
def describeFile (path : Path) : Option Boundary → String
  | some boundary => boundary.describe path
  | none => s!"'{printablePath path}'"

/-- The fields whose host paths a boundary contains. -/
inductive HostPathField where
  | volumes
  | buildDirectory
  | buildSecrets
  | buildSsh
deriving DecidableEq, Repr

/-- The field's name as a file writes it. -/
def HostPathField.name : HostPathField → String
  | volumes => "volumes"
  | buildDirectory => "build_directory"
  | buildSecrets => "build_secrets"
  | buildSsh => "build_ssh"

/-- Where a Batect-format file sits. -/
inductive BatectFile where
  | yamlRootProject
  | owned
  | bundle
  | bundleOfYamlRootProject
deriving DecidableEq, Repr

/-- `BatectFile::of`. -/
def BatectFile.of : Bool → Bool → BatectFile
  | false, true => yamlRootProject
  | false, false => owned
  | true, false => bundle
  | true, true => bundleOfYamlRootProject

/-- `BatectFile::remedy`. -/
def BatectFile.remedy (file : BatectFile) (subject : String) : String :=
  match file with
  | yamlRootProject => "convert the project to TOML (ratect config convert)"
  | owned => s!"move {subject} into a TOML file"
  | bundle => s!"the bundle's author has to move {subject} into a TOML file"
  | bundleOfYamlRootProject =>
      s!"the bundle's author has to move {subject} into a TOML file, and " ++
      "this project has to convert to TOML (ratect config convert)"

/-! ### The machine -/

/-- A failed file-system call. -/
inductive FsError where
  | notFound
  | other (message : String)
deriving DecidableEq, Repr

/-- What a bundle's entry file says of the version it was written for. -/
inductive WrittenFor where
  | yamlRoot
  | unmarked
  | declared (version : String)
deriving DecidableEq, Repr

/-- What the written-for check of one bundle entry reads. -/
structure BundleEntry where
  entryFile : String
  declaredIn : String
  declaredInBatect : Option BatectFile
  writtenFor : WrittenFor
  firstToml : Option String
  reviewed : Option String
  bundle : BundleId
  entryPath : Path
deriving DecidableEq

/-- The machine a load runs on. -/
structure Machine where
  currentDir : Except String Path
  homeDirectory : Except String Path
  isFile : Path → Bool
  fileExists : Path → Bool
  canonicalize : Path → Except FsError Path
  readYaml : Path → Except String ConfigFile
  readToml : Path → Except String ConfigFile
  ensureCached : Remote → String → Except String Path
  cachedWorkingCopy : Remote → String → Option Path
  readWrittenFor : Path → Except String (Option WrittenFor)
  parseVersion : String → Except String Unit
  checkBundle : String → BundleEntry → Except String Unit
  lowercase : Text → Text

/-! ### Errors -/

/-- The errors of a load. -/
inductive LoadError where
  | currentDir (message : String)
  | home (path : Text) (message : String)
  | invalidPath (asWritten : Text)
  | escapes (boundary : Boundary) (path : Path)
  | unresolvedFile (boundary : Boundary) (path : Path)
  | unresolvedCheckout (boundary : Boundary)
  | escapesBySymlink (boundary : Boundary) (path : Path)
  | notAFile (asWritten : Text) (path : Path) (boundary : Option Boundary)
  | missing (asWritten : Text) (path : Path) (boundary : Option Boundary)
  | noBundleFile (candidates : List Text)
  | extension (name : String)
  | unreadable (message : String)
  | nativeField (declaredIn field : String) (repo : Remote) (file : BatectFile)
  | compatField (declaring : Option BundleId) (field : String) (repo : Remote) (remark : String)
  | nestedGit (declaring : BundleId) (repo : Remote)
  | clone (files : List Text) (repo : Remote) (gitRef message : String)
  | nestedClone (repo : Remote) (gitRef : String) (declaring : BundleId)
  | lostGrants (lost : List String) (repo : Remote)
  | versionInYaml (path : Path) (boundary : Option Boundary)
  | versionInIncluded (path : Path) (boundary : Option Boundary)
  | projectNameInIncluded (path : Path) (boundary : Option Boundary)
  | telemetryInIncluded (path : Path) (boundary : Option Boundary)
  | invalidReviewed (bundle : BundleId) (declaredIn message : String)
  | writtenFor (message : String)
  | missingProjectName (root : Path)
  | projectNameAtRoot (root : Path)
  | invalidProjectName (name : Text) (root : Path)
  | duplicate (kind name : String) (files : List (Path × Option Boundary))
deriving DecidableEq

/-- How a message names an included file that is not there to read. -/
def describeIncluded (asWritten : Text) (path : Path) : Option Boundary → String
  | some boundary => s!"'{String.ofList (printable asWritten)}' ({boundary.describe path})"
  | none => s!"'{printablePath path}'"

/-- `IMAGE_NAME_RULE`. -/
def imageNameRule : String :=
  "must contain only lowercase letters, digits, dashes (-), single consecutive periods (.) or one " ++
  "or two consecutive underscores (_), and must not start or end with dashes, periods or underscores."

/-- The message of an error. -/
def LoadError.message : LoadError → String
  | currentDir message => message
  | home path message => s!"Cannot expand '~' in path '{String.ofList (printable path)}': {message}"
  | invalidPath asWritten =>
      s!"Include path '{String.ofList (printable asWritten)}' is not a valid path."
  | escapes boundary path =>
      s!"Included file {boundary.describe path} escapes the Git repository it " ++
      "was included from — includes reached through a Git include must resolve within that repository."
  | unresolvedFile boundary path => s!"Failed to resolve included file {boundary.describe path}"
  | unresolvedCheckout boundary =>
      s!"Failed to resolve the checkout of the bundle {boundary.bundle.id.display}"
  | escapesBySymlink boundary path => s!"Included file {boundary.describe path} escapes the Git " ++
      "repository it was included from (via a symlink) — includes reached through a Git include must " ++
      "resolve within that repository."
  | notAFile asWritten path boundary =>
      s!"Included file {describeIncluded asWritten path boundary} is not a file."
  | missing asWritten path boundary =>
      s!"Included file {describeIncluded asWritten path boundary} does not exist."
  | noBundleFile candidates => "No bundle file found in the Git include (looked for " ++
      ", ".intercalate (candidates.map String.ofList) ++ ")."
  | extension name =>
      s!"Unrecognized config file extension for {name}; expected .toml, .yml, or .yaml"
  | unreadable message => message
  | nativeField declaredIn field repo file =>
      s!"{declaredIn} sets '{field}' on its Git include of " ++
      s!"'{repo.display}', but a Batect-format (YAML) file can't set that field. To set it, " ++
      file.remedy "that Git include" ++ "."
  | compatField declaring field repo remark =>
      let subject := match declaring with
        | some id =>
            s!"The bundle {id.display} sets '{field}' on its Git include of '{repo.display}'"
        | none => s!"The Git include of '{repo.display}' sets '{field}'"
      subject ++ ", which is a ratect-native field not supported in Batect-compatible configuration. " ++
        remark
  | nestedGit declaring repo =>
      s!"The bundle {declaring.display} declares a Git include of its own " ++
      s!"('{repo.display}'), which would fetch and run configuration from a remote you have not named. " ++
      "Set 'allow_nested_git_includes' to true on that bundle's own include entry to accept this; only " ++
      "a TOML file can set it."
  | clone files repo gitRef message =>
      let named := " or ".intercalate (files.map fun file => "'" ++ String.ofList file ++ "'")
      s!"Failed to resolve Git include {named} from {describeInclude repo gitRef}: {message}"
  | nestedClone repo gitRef declaring => s!"Failed to resolve the Git include of " ++
      s!"{describeInclude repo gitRef}, declared by the bundle {declaring.display}. The underlying error " ++
      "is not shown here because that remote was named by the bundle rather than by you — re-run with " ++
      "RUST_LOG=debug to see it."
  | lostGrants lost repo =>
      let named := "' and '".intercalate lost
      let were := if lost.length = 1 then "was" else "were"
      let permission := if lost.length = 1 then "the permission" else "the permissions"
      s!"'{named}' {were} set on the include of '{repo.display}', but the file it pulls in had already " ++
      s!"been reached through an earlier include, and a file is only loaded once — so {permission} " ++
      s!"would have had no effect. Move '{named}' onto whichever include reaches that file first — every " ++
      "include in the root configuration file is resolved before any bundle's own — or remove what " ++
      "cannot apply."
  | versionInYaml path boundary =>
      s!"{describeFile path boundary} declares 'ratect_version', which " ++
      "only a native ratect.toml can do: a Batect-format (YAML) file keeps Batect's own fields."
  | versionInIncluded path boundary => s!"Included file {describeFile path boundary} declares " ++
      "'ratect_version', but only the root configuration file, or the file a Git include names, can do so."
  | projectNameInIncluded path boundary =>
      s!"Included file {describeFile path boundary} declares " ++
      "'project_name', but only the root configuration file can do so."
  | telemetryInIncluded path boundary => s!"Included file {describeFile path boundary} sets " ++
      "'forbid_telemetry' to true, but only the root configuration file can forbid telemetry."
  | invalidReviewed bundle declaredIn message =>
      "Invalid 'reviewed_ratect_version' on the Git include of " ++
      s!"{bundle.display} in {declaredIn}: {message}"
  | writtenFor message => message
  | missingProjectName root =>
      s!"Configuration file {debugPath root} is missing the required 'project_name' field"
  | projectNameAtRoot root =>
      "No project name has been given explicitly, but the configuration file " ++
      s!"{debugPath root} is in the root directory and so a project name cannot be inferred. Set " ++
      "'project_name' to name the project."
  | invalidProjectName name root =>
      s!"The inferred project name '{String.ofList (printable name)}', " ++
      s!"from the directory holding {debugPath root}, is invalid. The project name must be a valid Docker " ++
      s!"reference: it {imageNameRule} Set 'project_name' to name the project explicitly."
  | duplicate kind name files => s!"The {kind} '{name}' is defined in multiple files: " ++
      humanReadableList (files.map fun file => describeFile file.1 file.2) "and"

end Ratect
