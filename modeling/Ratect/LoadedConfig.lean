import Ratect.Includes

/-! # Merging the loaded files

The second half of `Config::load_from_file_impl` (`config.rs`): once every file is read, the
deferred written-for checks, the project's name, the merge of containers, tasks and config
variables in load order with the files each name stands in, and the refusal of a name that stands
in more than one file. -/

namespace Ratect

open Paths (Path)

/-! ### Deferred written-for checks -/

/-- The targets of a file's local includes, in order. -/
def localTargets (localIncludes : List (Path × Path)) (file : Path) : List Path :=
  (localIncludes.filter fun e => e.1 = file).map Prod.snd

/-- The first TOML file among the targets, or the files to go on from. -/
def scanTargets : List Path → List Path → List Path → Path ⊕ (List Path × List Path)
  | [], seen, queue => .inr (seen, queue)
  | target :: rest, seen, queue =>
      if configFileFormat target = some .toml then .inl target
      else if target ∈ seen then scanTargets rest seen queue
      else scanTargets rest (seen ++ [target]) (queue ++ [target])

/-- The walk of `first_toml_reached`, over at most so many files. -/
def tomlWalk (localIncludes : List (Path × Path)) : ℕ → List Path → List Path → Option Path
  | 0, _, _ => none
  | _ + 1, _, [] => none
  | files + 1, seen, file :: queue =>
      match scanTargets (localTargets localIncludes file) seen queue with
      | .inl toml => some toml
      | .inr (seen, queue) => tomlWalk localIncludes files seen queue

/-- `first_toml_reached`: every file walked but the first is the target of an include, so there are
no more of them than that. -/
def firstTomlReached (entry : Path) (localIncludes : List (Path × Path)) : Option Path :=
  tomlWalk localIncludes (localIncludes.length + 1) [entry] [entry]

/-- `YamlBundleEntry::check`. -/
def YamlBundleEntry.check (machine : Machine) (running : String)
    (localIncludes : List (Path × Path)) (e : YamlBundleEntry) : Except LoadError Unit :=
  let firstToml := (firstTomlReached e.entry localIncludes).map e.boundary.describe
  refusedWrittenFor (machine.checkBundle running
    ⟨e.entryFile, e.declaredIn, e.declaredInBatect, .yamlRoot, firstToml, e.reviewed,
      e.boundary.bundle.id,
      e.entry⟩)

/-- Every deferred check, in order. -/
def checkYamlBundles (machine : Machine) (running : Option String) (t : Traversal) :
    Except LoadError Unit :=
  match running with
  | none => .ok ()
  | some running =>
      t.yamlBundleEntries.forM (YamlBundleEntry.check machine running t.bundleLocalIncludes)

/-! ### Merging -/

/-- A file that a name is defined in. -/
abbrev DefinedIn := Path × Option Boundary

/-- The merge of one kind of declaration: each name once, and the files it stands in. -/
structure Merge (V : Type) where
  entries : IndexMap String (V × DefinedIn)
  files : List (String × DefinedIn)

namespace Merge

variable {V : Type}

/-- Nothing merged yet. -/
def empty : Merge V := ⟨.empty, []⟩

/-- One declaration: the file is noted, and the first one of a name is kept. -/
def declare (merge : Merge V) (file : DefinedIn) (e : String × V) : Merge V where
  entries :=
    if h : e.1 ∈ merge.entries.keys then merge.entries
    else
      { entries := merge.entries.entries ++ [(e.1, e.2, file)]
        nodup := by
          rw [List.map_append, List.nodup_append]
          refine ⟨merge.entries.nodup, List.nodup_singleton _, ?_⟩
          rintro a ha b hb rfl
          rw [List.map_singleton, List.mem_singleton] at hb
          exact h (hb ▸ ha) }
  files := merge.files ++ [(e.1, file)]

/-- What one file declares. -/
def addFile (declared : ConfigFile → List (String × V)) (merge : Merge V)
    (f : LoadedFile) : Merge V :=
  (declared f.file).foldl (fun merge e => merge.declare (f.path, f.boundary) e) merge

/-- What the files declare, in load order. -/
def ofFiles (declared : ConfigFile → List (String × V)) (files : List LoadedFile) : Merge V :=
  files.foldl (addFile declared) empty

/-- The files a name stands in, in load order. -/
def filesOf (merge : Merge V) (name : String) : List DefinedIn :=
  (merge.files.filter fun e => e.1 = name).map Prod.snd

/-- The first name that stands in more than one file, with those files. -/
def firstDuplicate (merge : Merge V) : Option (String × List DefinedIn) :=
  (merge.entries.keys.find? fun name => 1 < (merge.filesOf name).length).map
    fun name => (name, merge.filesOf name)

/-- A name of this kind that stands in more than one file is refused. -/
def rejectDuplicates (kind : String) (merge : Merge V) : Except LoadError Unit :=
  match merge.firstDuplicate with
  | none => .ok ()
  | some (name, files) => .error (.duplicate kind name files)

/-- The merged map, without where each entry came from. -/
def values (merge : Merge V) : IndexMap String V := merge.entries.mapEntries fun _ e => e.1

/-- The file each entry came from. -/
def origins (merge : Merge V) : IndexMap String DefinedIn := merge.entries.mapEntries fun _ e => e.2

end Merge

/-- The containers a file declares. -/
def ConfigFile.containerEntries (file : ConfigFile) : List (String × Config.Container) :=
  file.containers.entries

/-- The tasks a file declares. -/
def ConfigFile.taskEntries (file : ConfigFile) : List (String × Config.Task) := file.tasks.entries

/-- The config variables a file declares. -/
def ConfigFile.variableEntries (file : ConfigFile) : List (String × Config.ConfigVariable) :=
  match file.configVariables with
  | none => []
  | some declared => declared.entries

/-! ### The loaded configuration -/

/-- `LoadedConfig`: the merged configuration, and where each container came from. -/
structure LoadedConfig where
  config : Config
  containerBasePaths : IndexMap String Path
  containerBoundaries : IndexMap String Boundary
  containerOrigins : IndexMap String Path
  format : ConfigFormat
  files : List LoadedFile
  gitClones : Clones

/-- A map as the merged configuration keeps it: none at all if it is empty. -/
def nonEmpty {V : Type} (m : IndexMap String V) : Option (IndexMap String V) :=
  if m.entries.isEmpty then none else some m

section finish

variable (machine : Machine) (format : ConfigFormat) (running : Option String)

/-- What follows the walk. -/
def finishLoad (root : LoadedFile) (t : Traversal) : Except LoadError LoadedConfig := do
  checkYamlBundles machine running t
  let projectName ← format.projectName machine root.path root.file.projectName
  let containers := Merge.ofFiles ConfigFile.containerEntries t.loaded
  let tasks := Merge.ofFiles ConfigFile.taskEntries t.loaded
  let configVariables := Merge.ofFiles ConfigFile.variableEntries t.loaded
  tasks.rejectDuplicates "task"
  containers.rejectDuplicates "container"
  configVariables.rejectDuplicates "config variable"
  return {
    config :=
      { projectName := projectName
        containers := containers.values
        tasks := tasks.values
        configVariables := nonEmpty configVariables.values
        forbidTelemetry := root.file.forbidTelemetry }
    containerBasePaths := containers.origins.mapEntries fun _ origin => containingDir origin.1
    containerBoundaries := containers.origins.filterMapValues Prod.snd
    containerOrigins := containers.origins.mapEntries fun _ origin => origin.1
    format := format
    files := t.loaded
    gitClones := t.gitRepoPaths }

/-- The load from a root file that is read, over at most so many include entries. -/
def loadFrom (rounds : ℕ) (root : LoadedFile) : Option (Except LoadError LoadedConfig) :=
  (traverse machine format running rounds root).map
    fun walked => walked.bind (finishLoad machine format running root)

/-- `Config::load_from_file_impl`, over at most so many include entries. -/
def loadFromFile (rounds : ℕ) (path : Path) : Option (Except LoadError LoadedConfig) :=
  match readRoot machine format path with
  | .error e => some (.error e)
  | .ok root => loadFrom machine format running rounds root

end finish

end Ratect
