import Ratect.Configuration
import Ratect.Expressions
import Ratect.Loop
import Ratect.Strings

/-! # Reading a `ratect.toml`

The readers of `config.rs` that an expression passes through, from a document as `toml` parses it.
The fields of a struct are taken by name from a table; the readers that are derived for a struct
also take them by position, from an array (`StructShape.fields`).  Whatever holds no expression is
read by `OtherFields`, which stand outside the model.  Where several values of a file are mistaken,
which of them is named depends on their order in it, and here on the order of the readers. -/

namespace Ratect

/-- How `f64`'s `Display` writes a float. -/
structure FloatText where
  text : Text
  written : ∀ c ∈ text, c ∈ "-.0123456789NaNinf".toList

/-- `toml::Value`. -/
inductive Toml where
  | string (text : Text)
  | integer (value : ℤ)
  | float (value : FloatText)
  | boolean (value : Bool)
  | datetime (text : Text)
  | array (items : List Toml)
  | table (entries : List (String × Toml))

namespace Toml

/-- `toml::Table`: the keys and their values, in the order of the file. -/
abbrev Table := List (String × Toml)

/-- `toml::Table::get`. -/
def Table.get? (entries : Table) (name : String) : Option Toml :=
  (entries.find? fun e => e.1 = name).map Prod.snd

/-- `toml::Value::get`, by a name. -/
def get? : Toml → String → Option Toml
  | .table entries, name => Table.get? entries name
  | _, _ => none

/-- `toml::Value::as_str`. -/
def asStr : Toml → Option Text
  | .string text => some text
  | _ => none

/-- Whether the value is an array. -/
def isArray : Toml → Bool
  | .array _ => true
  | _ => false

/-- `i64`'s `Display`. -/
def displayInteger : ℤ → Text
  | .ofNat n => display n
  | .negSucc n => '-' :: display (n + 1)

/-- `bool`'s `Display`. -/
def displayBoolean (value : Bool) : Text := if value then "true".toList else "false".toList

/-- A scalar's text, as `ScalarString` has it. -/
def scalarText : Toml → Option Text
  | .string text => some text
  | .integer value => some (displayInteger value)
  | .float value => some value.text
  | .boolean value => some (displayBoolean value)
  | _ => none

end Toml

/-- Why a reader refuses a value. -/
inductive ReadError where
  | custom (message : String)
  | missingField (name : String)
  | unknownField (name : String)
  | duplicateKey
  | invalidType
  | invalidLength
deriving DecidableEq, Repr

/-- A struct with a derived reader: its fields in order, and how many of them an array has to give,
the ones after these having defaults. -/
structure StructShape where
  names : List String
  needed : ℕ

namespace StructShape

/-- The fields that a value gives a struct: by name, and no others, or by position, where items past
the last field are not looked at. -/
def fields (shape : StructShape) : Toml → Except ReadError Toml.Table
  | .table entries =>
      match entries.find? fun e => e.1 ∉ shape.names with
      | some e => .error (.unknownField e.1)
      | none => .ok entries
  | .array items =>
      if items.length < shape.needed then .error .invalidLength else .ok (shape.names.zip items)
  | _ => .error .invalidType

/-- The value that a field of a struct is read from. -/
def find (shape : StructShape) : Toml → String → Option Toml
  | .table entries, name => Toml.Table.get? entries name
  | .array items, name => Toml.Table.get? (shape.names.zip items) name
  | _, _ => none

end StructShape

/-- `Identity`'s fields. -/
def identityShape : StructShape := ⟨["home", "additional_users"], 1⟩

/-- `SshAgent`'s fields. -/
def sshAgentShape : StructShape := ⟨["id", "paths"], 1⟩

/-- `Task`'s fields. -/
def taskShape : StructShape :=
  ⟨["run", "prerequisites", "dependencies", "description", "group", "customise"], 6⟩

/-- `TaskRun`'s fields. -/
def taskRunShape : StructShape :=
  ⟨["container", "command", "environment", "ports", "working_directory", "entrypoint"], 6⟩

/-- `TaskContainerCustomisation`'s fields. -/
def customisationShape : StructShape := ⟨["environment", "ports", "working_directory"], 3⟩

/-- The readers of what holds no expression, each given all the fields of its struct. -/
structure OtherFields where
  container : Toml.Table → Except ReadError Config.Container
  task : Toml.Table → Except ReadError Config.Task
  taskRun : Toml.Table → Except ReadError Config.TaskRun
  customisation : Toml.Table → Except ReadError Config.TaskContainerCustomisation
  file : Toml.Table → Except ReadError ConfigFile
  cacheScope : Toml → Except ReadError Config.CacheScope
  additionalUsers : Toml → Except ReadError (List Config.AdditionalUser)

/-! ### Values -/

/-- A string. -/
def readString : Toml → Except ReadError Text
  | .string text => .ok text
  | _ => .error .invalidType

/-- A list, each item read in turn. -/
def readList {α : Type} (read : Toml → Except ReadError α) : Toml → Except ReadError (List α)
  | .array items => items.mapM read
  | _ => .error .invalidType

/-- A map, each value read in turn. -/
def readMap {α : Type} (read : Toml → Except ReadError α) :
    Toml → Except ReadError (List (String × α))
  | .table entries => entries.mapM fun e => (read e.2).map (e.1, ·)
  | _ => .error .invalidType

/-- A field that may be left out. -/
def readOption {α : Type} (read : Toml → Except ReadError α) (fields : Toml.Table) (name : String) :
    Except ReadError (Option α) :=
  match fields.get? name with
  | none => .ok none
  | some value => (read value).map some

/-- A field that must be there. -/
def readField {α : Type} (read : Toml → Except ReadError α) (fields : Toml.Table)
    (name : String) : Except ReadError α :=
  match fields.get? name with
  | none => .error (.missingField name)
  | some value => read value

/-- A map whose entries have one key each. -/
def keyed {α : Type} (entries : List (String × α)) : Except ReadError (IndexMap String α) :=
  if h : (entries.map Prod.fst).Nodup then .ok ⟨entries, h⟩ else .error .duplicateKey

section readers

variable (unicode : Char → Bool)

/-- `checked_expression`. -/
def checkedExpression (value : Text) : Except ReadError Text :=
  match Expressions.checkSyntax unicode value with
  | .ok () => .ok value
  | .error error =>
      .error (.custom s!"invalid expression '{String.ofList (printable value)}': {error}")

/-- `Checked`. -/
def readExpression (value : Toml) : Except ReadError Text := do
  let text ← readString value
  checkedExpression unicode text

/-- `ScalarString`, checked. -/
def readScalar (value : Toml) : Except ReadError Text :=
  match value.scalarText with
  | none => .error .invalidType
  | some text => checkedExpression unicode text

/-- `VolumeMount::parse_string`. -/
def parseVolumeString (value : Text) : Except String Config.LocalVolumeMount :=
  let invalid :=
    s!"Volume mount definition '{String.ofList (printable value)}' is invalid. It must be in the form " ++
    "'local_path:container_path' or 'local_path:container_path:options'."
  if value = [] then .error "Volume mount definition cannot be empty."
  else
    match value.splitOn ':' with
    | [host, container] =>
        if host = [] ∨ container = [] then .error invalid else .ok ⟨host, container, none, true⟩
    | [host, container, options] =>
        if host = [] ∨ container = [] ∨ options = [] then .error invalid
        else .ok ⟨host, container, some options, true⟩
    | _ => .error invalid

/-- What an object of `volumes` may hold. -/
def volumeFields : StructShape := ⟨["local", "container", "options", "name", "type", "scope"], 6⟩

/-- `VolumeMountVisitor::visit_map`. -/
def readVolumeObject (others : OtherFields) (object : Toml) :
    Except ReadError Config.VolumeMount := do
  let fields ← volumeFields.fields object
  let host ← readOption readString fields "local"
  let container ← readField readString fields "container"
  let options ← readOption readString fields "options"
  let name ← readOption readString fields "name"
  let mountType ← readOption readString fields "type"
  let scope ← readOption others.cacheScope fields "scope"
  let refuse :=
    fun message : String => (.error (.custom message) : Except ReadError Config.VolumeMount)
  let mountType := mountType.getD "local".toList
  if mountType = "local".toList then
    if scope.isSome then refuse "Field 'scope' is only permitted for cache mounts."
    else if name.isSome then refuse "Field 'name' is not permitted for local path mounts."
    else
      match host with
      | none => .error (.missingField "local")
      | some host => do
          let host ← checkedExpression unicode host
          return .host ⟨host, container, options, false⟩
  else if mountType = "cache".toList then
    if host.isSome then refuse "Field 'local' is not permitted for cache mounts."
    else
      match name with
      | none => .error (.missingField "name")
      | some name => return .cache ⟨String.ofList name, container, options, scope⟩
  else if mountType = "tmpfs".toList then
    if scope.isSome then refuse "Field 'scope' is only permitted for cache mounts."
    else if host.isSome then refuse "Field 'local' is not permitted for tmpfs mounts."
    else if name.isSome then refuse "Field 'name' is not permitted for tmpfs mounts."
    else return .tmpfs ⟨container, options⟩
  else
    refuse (s!"Unknown volume mount type '{String.ofList (printable mountType)}'. It must be 'local', 'cache', or " ++
      "'tmpfs'.")

/-- `VolumeMount`, in either of its forms. -/
def readVolume (others : OtherFields) : Toml → Except ReadError Config.VolumeMount
  | .string entry =>
      match parseVolumeString entry with
      | .error message => .error (.custom message)
      | .ok mount => do
          let _ ← checkedExpression unicode mount.host
          return .host mount
  | .table entries => readVolumeObject unicode others (.table entries)
  | _ => .error .invalidType

/-- What an entry of `build_secrets` may hold. -/
def secretFields : StructShape := ⟨["environment", "path"], 2⟩

/-- `BuildSecret`. -/
def readSecret : Toml → Except ReadError Config.BuildSecret
  | .table entries => do
      let fields ← secretFields.fields (.table entries)
      let environment ← readOption readString fields "environment"
      let path ← readOption readString fields "path"
      match environment, path with
      | some _, some _ => .error (.custom
          "A secret can have either 'environment' or 'path', but both have been provided.")
      | some environment, none => return .environment (String.ofList environment)
      | none, some path => do
          let path ← checkedExpression unicode path
          return .path path
      | none, none => .error (.custom
          "A secret must have either 'environment' or 'path', but neither has been provided.")
  | _ => .error .invalidType

/-- `SshAgent`. -/
def readAgent (agent : Toml) : Except ReadError Config.SshAgent := do
  let fields ← sshAgentShape.fields agent
  let id ← readField readString fields "id"
  let paths ← readOption (readList (readExpression unicode)) fields "paths"
  return ⟨String.ofList id, paths.getD []⟩

/-- `Identity`. -/
def readIdentity (others : OtherFields) (identity : Toml) : Except ReadError Config.Identity := do
  let fields ← identityShape.fields identity
  let written ← readField readString fields "home"
  let additionalUsers ← readOption others.additionalUsers fields "additional_users"
  let home ← checkedExpression unicode written
  return ⟨home, additionalUsers.getD []⟩

/-! ### Containers, tasks and files -/

/-- `Container`.  An array would have to give it `run_as_current_user`, which no TOML file may
set. -/
def readContainer (others : OtherFields) : Toml → Except ReadError Config.Container
  | .table fields => do
      let other ← others.container fields
      let image ← readOption (readExpression unicode) fields "image"
      let buildDirectory ← readOption (readExpression unicode) fields "build_directory"
      let buildArgs ← readOption (readMap (readExpression unicode)) fields "build_args"
      let buildSecrets ← readOption (readMap (readSecret unicode)) fields "build_secrets"
      let buildSsh ← readOption (readList (readAgent unicode)) fields "build_ssh"
      let volumes ← readOption (readList (readVolume unicode others)) fields "volumes"
      let environment ← readOption (readMap (readScalar unicode)) fields "environment"
      let identity ← readOption (readIdentity unicode others) fields "identity"
      return { other with
        image := image
        buildDirectory := buildDirectory
        buildArgs := buildArgs
        buildSecrets := buildSecrets
        buildSsh := buildSsh
        volumes := volumes
        environment := environment
        identity := identity }
  | _ => .error .invalidType

/-- `TaskRun`. -/
def readTaskRun (others : OtherFields) (run : Toml) : Except ReadError Config.TaskRun := do
  let fields ← taskRunShape.fields run
  let other ← others.taskRun fields
  let environment ← readOption (readMap (readScalar unicode)) fields "environment"
  return { other with environment := environment }

/-- `TaskContainerCustomisation`. -/
def readCustomisation (others : OtherFields) (customisation : Toml) :
    Except ReadError Config.TaskContainerCustomisation := do
  let fields ← customisationShape.fields customisation
  let other ← others.customisation fields
  let environment ← readOption (readMap (readScalar unicode)) fields "environment"
  return { other with environment := environment }

/-- A task's `customise`. -/
def readCustomise (others : OtherFields) (customise : Toml) :
    Except ReadError (IndexMap String Config.TaskContainerCustomisation) := do
  let entries ← readMap (readCustomisation unicode others) customise
  keyed entries

/-- `Task`. -/
def readTask (others : OtherFields) (task : Toml) : Except ReadError Config.Task := do
  let fields ← taskShape.fields task
  let other ← others.task fields
  let run ← readOption (readTaskRun unicode others) fields "run"
  let customise ← readOption (readCustomise unicode others) fields "customise"
  return { other with run := run, customise := customise }

/-- A map of containers or of tasks; there are none where it is left out. -/
def readNamed {α : Type} (read : Toml → Except ReadError α) (document : Toml.Table)
    (name : String) :
    Except ReadError (IndexMap String α) := do
  let entries ← readOption (readMap read) document name
  keyed (entries.getD [])

/-- `ConfigFile`. -/
def readConfigFile (others : OtherFields) (document : Toml.Table) :
    Except ReadError ConfigFile := do
  let other ← others.file document
  let containers ← readNamed (readContainer unicode others) document "containers"
  let tasks ← readNamed (readTask unicode others) document "tasks"
  return { other with containers := containers, tasks := tasks }

end readers

end Ratect
