import Ratect.ExpressionFields
import Ratect.TomlReaders

/-! # Expressions in a TOML document

`expressions` (`written_for.rs`) walks a document for the values that are read as expressions; it
takes every field by its name.  The readers also take the fields of some structs by position, and
what they read is the same walk with that lookup (`readConfigFile_expressions`). -/

namespace Ratect.WrittenFor

open Config (containerField)

/-! ### The walk -/

/-- How the field of a struct is looked up. -/
abbrev Lookup := StructShape → Toml → String → Option Toml

/-- `toml::Value::get`. -/
def byName : Lookup := fun _ value name => value.get? name

/-- `table`: the entries of a value, none if it is no table. -/
def tableOf : Option Toml → Toml.Table
  | some (.table entries) => entries
  | _ => []

/-- `array`. -/
def arrayOf : Option Toml → List Toml
  | some (.array items) => items
  | _ => []

/-- The host path of a `volumes` entry: a string's text up to its first `:`, or what a local object
has as `local`. -/
def localOf : Toml → Option Toml
  | .string entry => (entry.splitOn ':').head?.map .string
  | .table object =>
      match (Toml.Table.get? object "type").map Toml.asStr with
      | none => Toml.Table.get? object "local"
      | some mountType =>
          if mountType = some "local".toList then Toml.Table.get? object "local" else none
  | _ => none

/-- The values of a container that hold expressions, each with its field, but those of its agents
and its identity. -/
def namedValues (name : String) (container : Toml) : List (String × Toml) :=
  inField (containerField name "image") (container.get? "image") ++
  inField (containerField name "build_directory") (container.get? "build_directory") ++
  (arrayOf (container.get? "volumes")).flatMap
    (fun volume => inField (containerField name "volumes") (localOf volume)) ++
  (tableOf (container.get? "environment")).flatMap (fun e =>
    inField (containerField name s!"environment.{e.1}") (some e.2)) ++
  (tableOf (container.get? "build_args")).flatMap (fun e =>
    inField (containerField name s!"build_args.{e.1}") (some e.2)) ++
  (tableOf (container.get? "build_secrets")).flatMap fun e =>
    inField (containerField name s!"build_secrets.{e.1}.path") (e.2.get? "path")

section walk

variable (lookup : Lookup)

/-- The key files of an agent. -/
def agentPaths (field : String) (agent : Toml) : List (String × Toml) :=
  (arrayOf (lookup sshAgentShape agent "paths")).flatMap fun path => inField field (some path)

/-- The home of an identity. -/
def identityHome (field : String) (identity : Option Toml) : List (String × Toml) :=
  inField field (identity.bind fun identity => lookup identityShape identity "home")

/-- The values of a container. -/
def containerValues (name : String) (container : Toml) : List (String × Toml) :=
  namedValues name container ++
  (arrayOf (container.get? "build_ssh")).flatMap
    (agentPaths lookup (containerField name "build_ssh.paths")) ++
  identityHome lookup (containerField name "identity.home") (container.get? "identity")

/-- The environment that a struct gives under `field`. -/
def environmentValues (field : String) (shape : StructShape) (value : Toml) :
    List (String × Toml) :=
  (tableOf (lookup shape value "environment")).flatMap fun e =>
    inField s!"{field}.environment.{e.1}" (some e.2)

/-- The environment of what a task runs. -/
def runValues (name : String) (task : Toml) : List (String × Toml) :=
  (lookup taskShape task "run").toList.flatMap
    (environmentValues lookup s!"tasks.{name}.run" taskRunShape)

/-- The environments of a task's customisations. -/
def customiseValues (name : String) (task : Toml) : List (String × Toml) :=
  (tableOf (lookup taskShape task "customise")).flatMap fun e =>
    environmentValues lookup s!"tasks.{name}.customise.{e.1}" customisationShape e.2

/-- The values of a task. -/
def taskValues (name : String) (task : Toml) : List (String × Toml) :=
  runValues lookup name task ++ customiseValues lookup name task

/-- The values of a document. -/
def values (document : Toml.Table) : List (String × Toml) :=
  (tableOf (document.get? "containers")).flatMap (fun e => containerValues lookup e.1 e.2) ++
  (tableOf (document.get? "tasks")).flatMap fun e => taskValues lookup e.1 e.2

end walk

/-- A field's value as a text, if it is taken for one. -/
def picked (pick : Toml → Option Text) (e : String × Toml) : Option (String × Text) :=
  (pick e.2).map (e.1, ·)

/-- `expressions`. -/
def expressions (document : Toml.Table) : List (String × Text) :=
  (values byName document).filterMap (picked Toml.asStr)

/-! ### What is read -/

section lists

variable {α β γ : Type}

theorem flatMap_forall₂ {R : α → β → Prop} {l : List α} {l' : List β} (h : List.Forall₂ R l l')
    {f : α → List γ} {g : β → List γ} (hfg : ∀ a b, R a b → f a = g b) :
    l.flatMap f = l'.flatMap g := by
  induction h with
  | nil => rfl
  | cons hab _ ih => rw [List.flatMap_cons, List.flatMap_cons, hfg _ _ hab, ih]

end lists

section reading

variable {α : Type} {read : Toml → Except ReadError α} {fields : Toml.Table} {name : String}

theorem readOption_cases {value : Option α} (h : readOption read fields name = .ok value) :
    (fields.get? name = none ∧ value = none) ∨
      ∃ v a, fields.get? name = some v ∧ read v = .ok a ∧ value = some a := by
  unfold readOption at h
  split at h
  · next hnone =>
      cases h
      exact Or.inl ⟨hnone, rfl⟩
  · next v hsome =>
      cases hread : read v with
      | error e =>
          rw [hread] at h
          cases h
      | ok a =>
          rw [hread] at h
          cases h
          exact Or.inr ⟨v, a, hsome, hread, rfl⟩

/-- A list that may be left out, each item read. -/
theorem readOption_list {items : Option (List α)}
    (h : readOption (readList read) fields name = .ok items) :
    List.Forall₂ (fun v a => read v = .ok a) (arrayOf (fields.get? name)) (items.getD []) := by
  rcases readOption_cases h with ⟨hnone, rfl⟩ | ⟨v, a, hsome, hread, rfl⟩
  · rw [hnone]
    exact List.Forall₂.nil
  · rw [hsome]
    cases v with
    | array values => exact Except.mapM_eq_ok.mp hread
    | _ => cases hread

theorem readMap_ok {value : Toml} {entries : List (String × α)}
    (h : readMap read value = .ok entries) :
    List.Forall₂ (fun e e' => e.1 = e'.1 ∧ read e.2 = .ok e'.2) (tableOf (some value)) entries := by
  cases value with
  | table values =>
      refine (Except.mapM_eq_ok.mp h).imp fun e e' he => ?_
      cases hvalue : read e.2 with
      | error error =>
          rw [hvalue] at he
          cases he
      | ok value =>
          rw [hvalue] at he
          cases he
          exact ⟨rfl, rfl⟩
  | _ => cases h

/-- A map that may be left out, each value read. -/
theorem readOption_map {entries : Option (List (String × α))}
    (h : readOption (readMap read) fields name = .ok entries) :
    List.Forall₂ (fun e e' => e.1 = e'.1 ∧ read e.2 = .ok e'.2) (tableOf (fields.get? name))
      (entries.getD []) := by
  rcases readOption_cases h with ⟨hnone, rfl⟩ | ⟨v, a, hsome, hread, rfl⟩
  · rw [hnone]
    exact List.Forall₂.nil
  · rw [hsome]
    exact readMap_ok hread

theorem keyed_ok {entries : List (String × α)} {keyedEntries : IndexMap String α}
    (h : keyed entries = .ok keyedEntries) : keyedEntries.entries = entries := by
  unfold keyed at h
  split_ifs at h
  cases h
  rfl

end reading

/-- A pick that takes every scalar for the text that it is read as. -/
def Picks (unicode : Char → Bool) (pick : Toml → Option Text) : Prop :=
  ∀ value text, readScalar unicode value = .ok text → pick value = some text

section picks

variable {unicode : Char → Bool} {others : OtherFields} {pick : Toml → Option Text}

theorem checkedExpression_ok {value text : Text} (h : checkedExpression unicode value = .ok text) :
    text = value ∧ Expressions.checkSyntax unicode value = .ok () := by
  unfold checkedExpression at h
  split at h
  · next hcheck =>
      cases h
      exact ⟨rfl, hcheck⟩
  · cases h

theorem readString_ok {value : Toml} {text : Text} (h : readString value = .ok text) :
    value = .string text := by
  cases value with
  | string t =>
      cases h
      rfl
  | _ => cases h

theorem Picks.checked (hpick : Picks unicode pick) {value text : Text}
    (h : checkedExpression unicode value = .ok text) : pick (.string value) = some value := by
  obtain ⟨rfl, -⟩ := checkedExpression_ok h
  exact hpick _ _ h

theorem Picks.expression (hpick : Picks unicode pick) {value : Toml} {text : Text}
    (h : readExpression unicode value = .ok text) : pick value = some text := by
  obtain ⟨written, hwritten, hchecked⟩ := Except.bind_eq_ok.mp h
  rw [readString_ok hwritten, hpick.checked hchecked, (checkedExpression_ok hchecked).1]

theorem picked_inField (field : String) {value : Option Toml} {result : Option Text}
    (h : value.bind pick = result) :
    (inField field value).filterMap (picked pick) = inField field result := by
  cases value with
  | none =>
      cases h
      rfl
  | some v =>
      change pick v = result at h
      change [(field, v)].filterMap (picked pick) = _
      rw [← h]
      unfold picked
      cases hv : pick v <;> simp [hv, inField]

/-- A field that may be left out. -/
theorem picked_option {read : Toml → Except ReadError Text}
    (hread : ∀ v t, read v = .ok t → pick v = some t) {fields : Toml.Table} {name : String}
    {value : Option Text} (h : readOption read fields name = .ok value) :
    (fields.get? name).bind pick = value := by
  rcases readOption_cases h with ⟨hnone, rfl⟩ | ⟨v, t, hsome, hvalue, rfl⟩
  · rw [hnone]
    rfl
  · rw [hsome]
    exact hread v t hvalue

/-- A map that may be left out. -/
theorem picked_map {read : Toml → Except ReadError Text}
    (hread : ∀ v t, read v = .ok t → pick v = some t) {fields : Toml.Table} {name : String}
    {entries : Option (List (String × Text))}
    (h : readOption (readMap read) fields name = .ok entries) (field : String → String) :
    ((tableOf (fields.get? name)).flatMap fun e =>
      inField (field e.1) (some e.2)).filterMap (picked pick) =
      (entries.getD []).flatMap fun e => inField (field e.1) (some e.2) := by
  rw [List.filterMap_flatMap]
  refine flatMap_forall₂ (readOption_map h) fun e e' he => ?_
  rw [he.1]
  exact picked_inField _ (hread _ _ he.2)

theorem fields_table {shape : StructShape} {entries fields : Toml.Table}
    (h : shape.fields (.table entries) = .ok fields) : fields = entries := by
  unfold StructShape.fields at h
  dsimp only at h
  split at h
  · cases h
  · cases h
    rfl

theorem fields_get? {shape : StructShape} {value : Toml} {fields : Toml.Table}
    (h : shape.fields value = .ok fields) (name : String) :
    fields.get? name = shape.find value name := by
  cases value with
  | table entries =>
      rw [fields_table h]
      rfl
  | array items =>
      unfold StructShape.fields at h
      dsimp only at h
      split_ifs at h
      cases h
      rfl
  | _ => cases h

theorem parseVolumeString_ok {entry : Text} {mount : Config.LocalVolumeMount}
    (h : parseVolumeString entry = .ok mount) : (entry.splitOn ':').head? = some mount.host := by
  unfold parseVolumeString at h
  dsimp only at h
  split_ifs at h
  split at h
  · next hsplit =>
      split_ifs at h
      cases h
      rw [hsplit]
      rfl
  · next hsplit =>
      split_ifs at h
      cases h
      rw [hsplit]
      rfl
  · cases h

theorem localOf_table {object : Toml.Table} {mountType : Option Text}
    (h : readOption readString object "type" = .ok mountType) : localOf (.table object) =
      if mountType.getD "local".toList = "local".toList then object.get? "local" else none := by
  unfold localOf
  dsimp only
  rcases readOption_cases h with ⟨hnone, rfl⟩ | ⟨v, t, hsome, hread, rfl⟩
  · rw [hnone]
    exact (if_pos rfl).symm
  · rw [hsome, readString_ok hread]
    exact if_congr Option.some_inj rfl rfl

theorem Picks.volumeObject (hpick : Picks unicode pick) {object : Toml.Table}
    {mount : Config.VolumeMount} (h : readVolumeObject unicode others (.table object) = .ok mount) :
    (localOf (.table object)).bind pick = mount.hostPath := by
  obtain ⟨fields, hfields, h⟩ := Except.bind_eq_ok.mp h
  obtain ⟨host, hhost, h⟩ := Except.bind_eq_ok.mp h
  obtain ⟨container, -, h⟩ := Except.bind_eq_ok.mp h
  obtain ⟨options, -, h⟩ := Except.bind_eq_ok.mp h
  obtain ⟨name, -, h⟩ := Except.bind_eq_ok.mp h
  obtain ⟨mountType, htype, h⟩ := Except.bind_eq_ok.mp h
  obtain ⟨scope, -, h⟩ := Except.bind_eq_ok.mp h
  rw [fields_table hfields] at hhost htype
  rw [localOf_table htype]
  dsimp only at h
  split_ifs at h with hlocal
  · rw [if_pos hlocal]
    split at h
    · cases h
    · next host =>
        obtain ⟨checked, hchecked, h⟩ := Except.bind_eq_ok.mp h
        cases h
        obtain ⟨rfl, -⟩ := checkedExpression_ok hchecked
        obtain ⟨v, t, hsome, hread, heq⟩ := (readOption_cases hhost).resolve_left (by simp)
        cases heq
        rw [hsome, readString_ok hread]
        exact hpick.checked hchecked
  · rw [if_neg hlocal]
    split at h
    · cases h
    · cases h
      rfl
  · rw [if_neg hlocal]
    cases h
    rfl

theorem Picks.volume (hpick : Picks unicode pick) {volume : Toml} {mount : Config.VolumeMount}
    (h : readVolume unicode others volume = .ok mount) :
    (localOf volume).bind pick = mount.hostPath := by
  cases volume with
  | string entry =>
      unfold readVolume at h
      dsimp only at h
      split at h
      · cases h
      · next mount' hparse =>
          obtain ⟨checked, hchecked, h⟩ := Except.bind_eq_ok.mp h
          cases h
          unfold localOf
          dsimp only
          rw [parseVolumeString_ok hparse]
          exact hpick.checked hchecked
  | table object => exact hpick.volumeObject h
  | _ => cases h

theorem Picks.secret (hpick : Picks unicode pick) {value : Toml} {secret : Config.BuildSecret}
    (h : readSecret unicode value = .ok secret) : (value.get? "path").bind pick = secret.file := by
  cases value with
  | table entries =>
      obtain ⟨fields, hfields, h⟩ := Except.bind_eq_ok.mp h
      obtain ⟨environment, -, h⟩ := Except.bind_eq_ok.mp h
      obtain ⟨path, hpath, h⟩ := Except.bind_eq_ok.mp h
      rw [fields_table hfields] at hpath
      change (Toml.Table.get? entries "path").bind pick = secret.file
      cases environment with
      | some environment =>
          cases path with
          | some path => cases h
          | none =>
              cases h
              rcases readOption_cases hpath with ⟨hnone, -⟩ | ⟨v, t, -, -, heq⟩
              · rw [hnone]
                rfl
              · cases heq
      | none =>
          cases path with
          | none => cases h
          | some path =>
              obtain ⟨checked, hchecked, h⟩ := Except.bind_eq_ok.mp h
              cases h
              obtain ⟨rfl, -⟩ := checkedExpression_ok hchecked
              obtain ⟨v, t, hsome, hread, heq⟩ := (readOption_cases hpath).resolve_left (by simp)
              cases heq
              rw [hsome, readString_ok hread]
              exact hpick.checked hchecked
  | _ => cases h

theorem Picks.agent (hpick : Picks unicode pick) {value : Toml} {agent : Config.SshAgent}
    (h : readAgent unicode value = .ok agent) (field : String) :
    (agentPaths StructShape.find field value).filterMap (picked pick) =
      agent.paths.flatMap fun path => inField field (some path) := by
  obtain ⟨fields, hfields, h⟩ := Except.bind_eq_ok.mp h
  obtain ⟨id, -, h⟩ := Except.bind_eq_ok.mp h
  obtain ⟨paths, hpaths, h⟩ := Except.bind_eq_ok.mp h
  cases h
  unfold agentPaths
  rw [← fields_get? hfields, List.filterMap_flatMap]
  exact flatMap_forall₂ (readOption_list hpaths) fun v t hread =>
    picked_inField _ (hpick.expression hread)

theorem Picks.identity (hpick : Picks unicode pick) {value : Toml} {identity : Config.Identity}
    (h : readIdentity unicode others value = .ok identity) :
    (identityShape.find value "home").bind pick = some identity.home := by
  obtain ⟨fields, hfields, h⟩ := Except.bind_eq_ok.mp h
  obtain ⟨written, hwritten, h⟩ := Except.bind_eq_ok.mp h
  obtain ⟨users, -, h⟩ := Except.bind_eq_ok.mp h
  obtain ⟨home, hhome, h⟩ := Except.bind_eq_ok.mp h
  cases h
  obtain ⟨rfl, -⟩ := checkedExpression_ok hhome
  rw [← fields_get? hfields]
  unfold readField at hwritten
  split at hwritten
  · cases hwritten
  · next v hv =>
      rw [hv, readString_ok hwritten]
      exact hpick.checked hhome

theorem Picks.container (hpick : Picks unicode pick) {value : Toml} {container : Config.Container}
    (h : readContainer unicode others value = .ok container) (name : String) :
    (containerValues StructShape.find name value).filterMap (picked pick) =
      container.expressions name := by
  cases value with
  | table fields =>
      obtain ⟨other, -, h⟩ := Except.bind_eq_ok.mp h
      obtain ⟨image, himage, h⟩ := Except.bind_eq_ok.mp h
      obtain ⟨buildDirectory, hdirectory, h⟩ := Except.bind_eq_ok.mp h
      obtain ⟨buildArgs, hargs, h⟩ := Except.bind_eq_ok.mp h
      obtain ⟨buildSecrets, hsecrets, h⟩ := Except.bind_eq_ok.mp h
      obtain ⟨buildSsh, hssh, h⟩ := Except.bind_eq_ok.mp h
      obtain ⟨volumes, hvolumes, h⟩ := Except.bind_eq_ok.mp h
      obtain ⟨environment, henvironment, h⟩ := Except.bind_eq_ok.mp h
      obtain ⟨identity, hidentity, h⟩ := Except.bind_eq_ok.mp h
      cases h
      have hexpression : ∀ v t, readExpression unicode v = .ok t → pick v = some t :=
        fun _ _ => hpick.expression
      have hhome : ((Toml.Table.get? fields "identity").bind fun value =>
          identityShape.find value "home").bind pick =
          identity.map Config.Identity.home := by
        rcases readOption_cases hidentity with ⟨hnone, rfl⟩ | ⟨v, i, hsome, hread, rfl⟩
        · rw [hnone]
          rfl
        · rw [hsome]
          exact hpick.identity hread
      have hvolumes' := flatMap_forall₂ (readOption_list hvolumes) fun v m hread =>
        picked_inField (containerField name "volumes") (hpick.volume hread)
      have hsecrets' : ((tableOf (Toml.Table.get? fields "build_secrets")).flatMap fun e =>
          inField (containerField name s!"build_secrets.{e.1}.path") (e.2.get? "path")).filterMap
            (picked pick) =
          (buildSecrets.getD []).flatMap fun e =>
            inField (containerField name s!"build_secrets.{e.1}.path") e.2.file := by
        rw [List.filterMap_flatMap]
        refine flatMap_forall₂ (readOption_map hsecrets) fun e e' he => ?_
        rw [he.1]
        exact picked_inField _ (hpick.secret he.2)
      have hssh' := flatMap_forall₂ (readOption_list hssh) fun v agent hread =>
        hpick.agent hread (containerField name "build_ssh.paths")
      rw [← List.filterMap_flatMap] at hvolumes' hssh'
      have hget : ∀ field,
          (Toml.table fields).get? field = Toml.Table.get? fields field := fun _ => rfl
      unfold containerValues namedValues identityHome Config.Container.expressions
      simp only [List.filterMap_append, hget]
      rw [picked_inField _ (picked_option hexpression himage),
        picked_inField _ (picked_option hexpression hdirectory), hvolumes',
        picked_map hpick henvironment fun key => containerField name s!"environment.{key}",
        picked_map hexpression hargs fun key => containerField name s!"build_args.{key}",
          hsecrets', hssh',
        picked_inField _ hhome]
  | _ => cases h

theorem Picks.environment (hpick : Picks unicode pick) {shape : StructShape} {value : Toml}
    {fields : Toml.Table} (hfields : shape.fields value = .ok fields)
    {environment : Option (List (String × Text))}
    (h : readOption (readMap (readScalar unicode)) fields "environment" = .ok environment)
    (field : String) :
    (environmentValues StructShape.find field shape value).filterMap (picked pick) =
      Config.environmentExpressions field environment := by
  unfold environmentValues
  rw [← fields_get? hfields]
  exact picked_map hpick h fun key => s!"{field}.environment.{key}"

theorem Picks.task (hpick : Picks unicode pick) {value : Toml} {task : Config.Task}
    (h : readTask unicode others value = .ok task) (name : String) :
    (taskValues StructShape.find name value).filterMap (picked pick) = task.expressions name := by
  obtain ⟨fields, hfields, h⟩ := Except.bind_eq_ok.mp h
  obtain ⟨other, -, h⟩ := Except.bind_eq_ok.mp h
  obtain ⟨run, hrun, h⟩ := Except.bind_eq_ok.mp h
  obtain ⟨customise, hcustomise, h⟩ := Except.bind_eq_ok.mp h
  cases h
  unfold taskValues runValues customiseValues Config.Task.expressions
  rw [List.filterMap_append, ← fields_get? hfields, ← fields_get? hfields, List.filterMap_flatMap,
    List.filterMap_flatMap]
  congr 1
  · rcases readOption_cases hrun with ⟨hnone, rfl⟩ | ⟨v, r, hsome, hread, rfl⟩
    · rw [hnone]
      rfl
    · obtain ⟨runFields, hrunFields, hread⟩ := Except.bind_eq_ok.mp hread
      obtain ⟨other, -, hread⟩ := Except.bind_eq_ok.mp hread
      obtain ⟨environment, henvironment, hread⟩ := Except.bind_eq_ok.mp hread
      cases hread
      rw [hsome]
      simpa using hpick.environment hrunFields henvironment _
  · rcases readOption_cases hcustomise with ⟨hnone, rfl⟩ | ⟨v, c, hsome, hread, rfl⟩
    · rw [hnone]
      rfl
    · rw [hsome]
      obtain ⟨entries, hentries, hkeyed⟩ := Except.bind_eq_ok.mp hread
      change List.flatMap _ (tableOf (some v)) = List.flatMap _ c.entries
      rw [keyed_ok hkeyed]
      refine flatMap_forall₂ (readMap_ok hentries) fun e e' he => ?_
      obtain ⟨customisation, hcustomisation, hread⟩ := Except.bind_eq_ok.mp he.2
      obtain ⟨other, -, hread⟩ := Except.bind_eq_ok.mp hread
      obtain ⟨environment, henvironment, hread⟩ := Except.bind_eq_ok.mp hread
      rw [he.1]
      rw [← Except.ok.inj hread]
      exact hpick.environment hcustomisation henvironment _

theorem readNamed_ok {α : Type} {read : Toml → Except ReadError α} {document : Toml.Table}
    {name : String} {entries : IndexMap String α} (h : readNamed read document name = .ok entries) :
    List.Forall₂ (fun e e' => e.1 = e'.1 ∧ read e.2 = .ok e'.2) (tableOf (document.get? name))
      entries.entries := by
  obtain ⟨written, hwritten, hkeyed⟩ := Except.bind_eq_ok.mp h
  rw [keyed_ok hkeyed]
  exact readOption_map hwritten

/-- The expressions of a file are what the walk finds in its document where it looks up fields as
the readers do. -/
theorem readConfigFile_expressions (hpick : Picks unicode pick) {document : Toml.Table}
    {file : ConfigFile} (h : readConfigFile unicode others document = .ok file) :
    (values StructShape.find document).filterMap (picked pick) = file.expressions := by
  obtain ⟨other, -, h⟩ := Except.bind_eq_ok.mp h
  obtain ⟨containers, hcontainers, h⟩ := Except.bind_eq_ok.mp h
  obtain ⟨tasks, htasks, h⟩ := Except.bind_eq_ok.mp h
  cases h
  unfold values ConfigFile.expressions
  rw [List.filterMap_append, List.filterMap_flatMap, List.filterMap_flatMap]
  congr 1
  · refine flatMap_forall₂ (readNamed_ok hcontainers) fun e e' he => ?_
    rw [he.1]
    exact hpick.container he.2 e'.1
  · refine flatMap_forall₂ (readNamed_ok htasks) fun e e' he => ?_
    rw [he.1]
    exact hpick.task he.2 e'.1

end picks

end Ratect.WrittenFor
