import Ratect.Evaluation

/-! # Where expressions stand

The texts of a container and of a task that `evaluate_container` and `evaluate_task` read as
expressions, each with its field.  Evaluation looks at no other text (`evaluateContainer_congr`),
and at each of these (`evaluateContainer_values`); what a container inherits adds texts of the
containers it extends, and takes none away (`Inherits.expressions`). -/

namespace Ratect

open Paths (Path)

/-- A field with its value, if there is one. -/
def inField {α : Type} (field : String) (value : Option α) : List (String × α) :=
  (value.map (field, ·)).toList

namespace Config

/-- The host path of a local mount. -/
def VolumeMount.hostPath : VolumeMount → Option Text
  | .host mount => some mount.host
  | _ => none

/-- The file of a secret. -/
def BuildSecret.file : BuildSecret → Option Text
  | .path file => some file
  | .environment _ => none

/-- `field`: a field of a container. -/
def containerField (name rest : String) : String := s!"containers.{name}.{rest}"

/-- The expressions of a container that a TOML file declares. -/
def Container.expressions (name : String) (container : Container) : List (String × Text) :=
  inField (containerField name "image") container.image ++
  inField (containerField name "build_directory") container.buildDirectory ++
  (container.volumes.getD []).flatMap
    (fun volume => inField (containerField name "volumes") volume.hostPath) ++
  (container.environment.getD []).flatMap
    (fun e => inField (containerField name s!"environment.{e.1}") (some e.2)) ++
  (container.buildArgs.getD []).flatMap
    (fun e => inField (containerField name s!"build_args.{e.1}") (some e.2)) ++
  (container.buildSecrets.getD []).flatMap
    (fun e => inField (containerField name s!"build_secrets.{e.1}.path") e.2.file) ++
  (container.buildSsh.getD []).flatMap (fun agent => agent.paths.flatMap fun path =>
    inField (containerField name "build_ssh.paths") (some path)) ++
  inField (containerField name "identity.home") (container.identity.map Identity.home)

/-- The expressions of an environment. -/
def environmentExpressions (field : String) (environment : Option (List (String × Text))) :
    List (String × Text) :=
  (environment.getD []).flatMap fun e => inField s!"{field}.environment.{e.1}" (some e.2)

/-- The expressions of a task. -/
def Task.expressions (name : String) (task : Task) : List (String × Text) :=
  task.run.toList.flatMap (fun run =>
    environmentExpressions s!"tasks.{name}.run" run.environment) ++
  ((task.customise.map IndexMap.entries).getD []).flatMap fun e =>
    environmentExpressions s!"tasks.{name}.customise.{e.1}" e.2.environment

end Config

/-- The expressions of a file. -/
def ConfigFile.expressions (file : ConfigFile) : List (String × Text) :=
  (file.containers.entries.flatMap fun e => e.2.expressions e.1) ++
    file.tasks.entries.flatMap fun e => e.2.expressions e.1

/-! ### What is said of every expression -/

theorem forall_mem_inField {α : Type} {field : String} {value : Option α} {P : α → Prop} :
    (∀ e ∈ inField field value, P e.2) ↔ ∀ a, value = some a → P a := by
  cases value <;> simp [inField]

namespace Config

/-- What every expression of a container satisfies, field by field. -/
structure Container.Every (P : Text → Prop) (container : Container) : Prop where
  image : ∀ t, container.image = some t → P t
  buildDirectory : ∀ t, container.buildDirectory = some t → P t
  volumes : ∀ volume ∈ container.volumes.getD [], ∀ t, volume.hostPath = some t → P t
  environment : ∀ e ∈ container.environment.getD [], P e.2
  buildArgs : ∀ e ∈ container.buildArgs.getD [], P e.2
  buildSecrets : ∀ e ∈ container.buildSecrets.getD [], ∀ t, e.2.file = some t → P t
  buildSsh : ∀ agent ∈ container.buildSsh.getD [], ∀ t ∈ agent.paths, P t
  identity : ∀ identity, container.identity = some identity → P identity.home

theorem Container.every_iff {P : Text → Prop} {name : String} {container : Container} :
    (∀ e ∈ container.expressions name, P e.2) ↔ container.Every P := by
  unfold expressions
  simp only [List.forall_mem_append, List.forall_mem_flatMap, forall_mem_inField]
  constructor
  · rintro ⟨⟨⟨⟨⟨⟨⟨h₁, h₂⟩, h₃⟩, h₄⟩, h₅⟩, h₆⟩, h₇⟩, h₈⟩
    exact ⟨h₁, h₂, h₃, fun e he => h₄ e he e.2 rfl, fun e he => h₅ e he e.2 rfl, h₆,
      fun agent hagent t ht => h₇ agent hagent t ht t rfl,
      fun identity hidentity => h₈ identity.home (by rw [hidentity]; rfl)⟩
  · intro h
    refine ⟨⟨⟨⟨⟨⟨⟨h.image, h.buildDirectory⟩, h.volumes⟩, ?_⟩, ?_⟩, h.buildSecrets⟩, ?_⟩, ?_⟩
    · rintro e he t ⟨⟩
      exact h.environment e he
    · rintro e he t ⟨⟩
      exact h.buildArgs e he
    · rintro agent hagent path hpath t ⟨⟩
      exact h.buildSsh agent hagent path hpath
    · intro t ht
      obtain ⟨identity, hidentity, rfl⟩ := Option.map_eq_some_iff.mp ht
      exact h.identity identity hidentity

/-- What every expression of a task satisfies. -/
structure Task.Every (P : Text → Prop) (task : Task) : Prop where
  run : ∀ run, task.run = some run → ∀ e ∈ run.environment.getD [], P e.2
  customise : ∀ customise, task.customise = some customise → ∀ e ∈ customise.entries,
    ∀ v ∈ e.2.environment.getD [], P v.2

theorem forall_mem_environment {P : Text → Prop} {field : String}
    {environment : Option (List (String × Text))} :
    (∀ e ∈ environmentExpressions field environment, P e.2) ↔ ∀ e ∈ environment.getD [], P e.2 := by
  unfold environmentExpressions
  simp only [List.forall_mem_flatMap, forall_mem_inField]
  exact ⟨fun h e he => h e he e.2 rfl, fun h e he t ht => Option.some.inj ht ▸ h e he⟩

theorem Task.every_iff {P : Text → Prop} {name : String} {task : Task} :
    (∀ e ∈ task.expressions name, P e.2) ↔ task.Every P := by
  unfold expressions
  simp only [List.forall_mem_append, List.forall_mem_flatMap,
    forall_mem_environment, Option.mem_toList]
  constructor
  · rintro ⟨hrun, hcustomise⟩
    exact ⟨hrun, fun customise h e he => hcustomise e (by rw [h]; exact he)⟩
  · intro h
    refine ⟨h.run, fun e he => ?_⟩
    cases hcustomise : task.customise with
    | none =>
        rw [hcustomise] at he
        cases he
    | some customise =>
        rw [hcustomise] at he
        exact h.customise customise hcustomise e he

end Config

/-! ### What is inherited -/

section inheritance

variable {α : Type} {P : Text → Prop}

theorem or_of_both {Q : Option α → Prop} {a b : Option α} (ha : Q a) (hb : Q b) : Q (a.or b) := by
  cases a
  · exact hb
  · exact ha

theorem mem_getD_or {a b : Option (List α)} {x : α} (h : x ∈ a.getD []) : x ∈ (a.or b).getD [] := by
  cases a
  · cases h
  · exact h

namespace Config

theorem Container.Every.consumed_iff {container : Container} :
    container.consumed.Every P ↔ container.Every P :=
  ⟨fun h => ⟨h.1, h.2, h.3, h.4, h.5, h.6, h.7, h.8⟩, fun h =>
    ⟨h.1, h.2, h.3, h.4, h.5, h.6, h.7, h.8⟩⟩

/-- Of two containers one of which extends the other: every field is of one of them, and those of
the first are kept. -/
theorem Container.Every.inherit {child parent : Container} (hchild : child.Every P)
    (hparent : parent.Every P) :
    (inheritContainerFields child parent).consumed.Every P where
  image := or_of_both (Q := fun image => ∀ t, image = some t → P t) hchild.image hparent.image
  buildDirectory :=
    or_of_both (Q := fun path => ∀ t, path = some t → P t) hchild.buildDirectory
      hparent.buildDirectory
  volumes :=
    or_of_both (Q := fun volumes : Option (List VolumeMount) =>
        ∀ volume ∈ volumes.getD [], ∀ t, volume.hostPath = some t → P t)
      hchild.volumes hparent.volumes
  environment :=
    or_of_both (Q := fun environment : Option (List (String × Text)) =>
        ∀ e ∈ environment.getD [], P e.2)
      hchild.environment hparent.environment
  buildArgs :=
    or_of_both (Q := fun args : Option (List (String × Text)) => ∀ e ∈ args.getD [], P e.2)
      hchild.buildArgs hparent.buildArgs
  buildSecrets :=
    or_of_both (Q := fun secrets : Option (List (String × BuildSecret)) =>
        ∀ e ∈ secrets.getD [], ∀ t, e.2.file = some t → P t)
      hchild.buildSecrets hparent.buildSecrets
  buildSsh :=
    or_of_both (Q := fun agents : Option (List SshAgent) =>
        ∀ agent ∈ agents.getD [], ∀ t ∈ agent.paths, P t)
      hchild.buildSsh hparent.buildSsh
  identity :=
    or_of_both (Q := fun identity : Option Identity => ∀ i, identity = some i → P i.home)
      hchild.identity hparent.identity

theorem Container.Every.of_inherit {child parent : Container}
    (h : (inheritContainerFields child parent).consumed.Every P) : child.Every P where
  image t ht := h.image t (Option.or_eq_some_iff.mpr (Or.inl ht))
  buildDirectory t ht := h.buildDirectory t (Option.or_eq_some_iff.mpr (Or.inl ht))
  volumes volume hvolume := h.volumes volume (mem_getD_or hvolume)
  environment e he := h.environment e (mem_getD_or he)
  buildArgs e he := h.buildArgs e (mem_getD_or he)
  buildSecrets e he := h.buildSecrets e (mem_getD_or he)
  buildSsh agent hagent := h.buildSsh agent (mem_getD_or hagent)
  identity i hi := h.identity i (Option.or_eq_some_iff.mpr (Or.inl hi))

end Config

/-- What a container ends up with holds the expressions that it declares, and others only of
containers it extends. -/
theorem Inherits.expressions {source : IndexMap String Config.Container} {name : String}
    {container : Config.Container} {suppliers : Suppliers}
    (h : Inherits source name container suppliers) :
    (∀ declared, source.get? name = some declared → container.Every P → declared.Every P) ∧
      ((∀ e ∈ source.entries, e.2.Every P) → container.Every P) := by
  induction h with
  | @own name declared hdeclared hextends =>
      refine ⟨fun declared' hdeclared' hevery => ?_, fun hall => ?_⟩
      · rw [hdeclared] at hdeclared'
        exact Option.some.inj hdeclared' ▸ Config.Container.Every.consumed_iff.mp hevery
      · exact Config.Container.Every.consumed_iff.mpr
          (hall _ (IndexMap.mem_entries_of_get? hdeclared))
  | @extending name parent declared inherited suppliers hdeclared hextends _ ih =>
      refine ⟨fun declared' hdeclared' hevery => ?_, fun hall => ?_⟩
      · rw [hdeclared] at hdeclared'
        exact Option.some.inj hdeclared' ▸ hevery.of_inherit
      · exact (hall _ (IndexMap.mem_entries_of_get? hdeclared)).inherit (ih.2 hall)

end inheritance

/-! ### What evaluation reads -/

theorem IndexMap.mapEntries_congr {K V W : Type} {m : IndexMap K V} {f g : K → V → W}
    (h : ∀ e ∈ m.entries, f e.1 e.2 = g e.1 e.2) : m.mapEntries f = m.mapEntries g := by
  have hentries : (m.mapEntries f).entries = (m.mapEntries g).entries :=
    List.map_congr_left fun e he => congrArg (e.1, ·) (h e he)
  generalize m.mapEntries f = l at hentries
  generalize m.mapEntries g = r at hentries
  cases l
  cases r
  cases hentries
  rfl

section combinators

variable {α : Type} {f g : α → α × List String}

theorem evaluateAll_congr {values : List α} (h : ∀ value ∈ values, f value = g value) :
    evaluateAll f values = evaluateAll g values := by
  unfold evaluateAll
  rw [List.map_congr_left fun value hvalue => congrArg Prod.fst (h value hvalue)]
  exact congrArg _ (List.flatMap_congr fun value hvalue => congrArg Prod.snd (h value hvalue))

theorem evaluateField_congr (field : Option α)
    (h : ∀ value, field = some value → f value = g value) :
    evaluateField f field = evaluateField g field := by
  cases field with
  | none => rfl
  | some value =>
      unfold evaluateField
      dsimp only
      rw [h value rfl]

/-- A list in a field, each of whose members is evaluated alike. -/
theorem evaluateList_congr (field : Option (List α))
    (h : ∀ value ∈ field.getD [], f value = g value) :
    evaluateField (evaluateAll f) field = evaluateField (evaluateAll g) field := by
  refine evaluateField_congr field fun values hvalues =>
    evaluateAll_congr fun value hvalue => h value ?_
  rw [hvalues]
  exact hvalue

theorem evaluateField_nil {field : Option α} (h : (evaluateField f field).2 = []) {value : α}
    (hvalue : field = some value) : (f value).2 = [] := by
  rw [hvalue] at h
  exact h

theorem evaluateAll_nil {values : List α} (h : (evaluateAll f values).2 = []) {value : α}
    (hvalue : value ∈ values) : (f value).2 = [] :=
  List.flatMap_eq_nil_iff.mp h value hvalue

/-- A list in a field none of whose members fails. -/
theorem evaluateList_nil {field : Option (List α)}
    (h : (evaluateField (evaluateAll f) field).2 = []) {value : α}
    (hvalue : value ∈ field.getD []) : (f value).2 = [] := by
  cases field with
  | none => cases hvalue
  | some values => exact evaluateAll_nil h hvalue

theorem storeOrRecord_nil {target : α} {outcome : Except String α}
    (h : (storeOrRecord target outcome).2 = []) : ∃ value, outcome = .ok value := by
  cases outcome with
  | error e => cases h
  | ok value => exact ⟨value, rfl⟩

end combinators

namespace Scope

/-- What an expression evaluates to. -/
def outcome (scope : Scope) (value : Text) : Except Expressions.Error Text :=
  Expressions.interpolate scope.unicode value scope.hostEnv scope.configVar

/-- An expression that evaluates alike. -/
def AgreesOn (scope scope' : Scope) (value : Text) : Prop :=
  scope.outcome value = scope'.outcome value

/-- An expression that evaluates. -/
def Evaluates (scope : Scope) (value : Text) : Prop :=
  ∃ evaluated, scope.outcome value = .ok evaluated

section same

variable {scope scope' : Scope} {anchor : Anchor}

theorem AgreesOn.value {value : Text} (h : scope.AgreesOn scope' value) (field : String) :
    scope.evaluateValue field value = scope'.evaluateValue field value := by
  unfold AgreesOn outcome at h
  unfold evaluateValue
  rw [h]

theorem AgreesOn.text {value : Text} (h : scope.AgreesOn scope' value) (field : String) :
    scope.evaluateText field value = scope'.evaluateText field value := by
  unfold evaluateText
  rw [h.value]

theorem AgreesOn.entry {entry : String × Text} (h : scope.AgreesOn scope' entry.2)
    (field : String) : scope.evaluateEntry field entry = scope'.evaluateEntry field entry := by
  unfold evaluateEntry
  rw [h.text]

theorem AgreesOn.path (hmachine : scope.machine = scope'.machine) {path : Text}
    (h : scope.AgreesOn scope' path) (field : String) (contained : HostPathField) :
    scope.resolvePath field contained path anchor =
      scope'.resolvePath field contained path anchor := by
  unfold resolvePath
  rw [h.value, hmachine]

theorem AgreesOn.home {home : Text} (h : scope.AgreesOn scope' home) :
    scope.evaluateHome home = scope'.evaluateHome home := by
  unfold evaluateHome
  rw [h.value]

theorem AgreesOn.buildDirectory (hmachine : scope.machine = scope'.machine) {path : Text}
    (h : scope.AgreesOn scope' path) :
    scope.evaluateBuildDirectory anchor path = scope'.evaluateBuildDirectory anchor path := by
  unfold evaluateBuildDirectory
  rw [h.path hmachine]

theorem evaluateVolume_congr (anchor : Anchor) (hmachine : scope.machine = scope'.machine)
    {volume : Config.VolumeMount}
    (h : ∀ path, volume.hostPath = some path → scope.AgreesOn scope' path) :
    scope.evaluateVolume anchor volume = scope'.evaluateVolume anchor volume := by
  cases volume with
  | host mount =>
      unfold evaluateVolume resolveLiteral
      dsimp only
      rw [(h mount.host rfl).path hmachine, hmachine]
  | cache mount => rfl
  | tmpfs mount => rfl

theorem evaluateSecret_congr (anchor : Anchor) (hmachine : scope.machine = scope'.machine)
    {entry : String × Config.BuildSecret}
    (h : ∀ path, entry.2.file = some path → scope.AgreesOn scope' path) :
    scope.evaluateSecret anchor entry = scope'.evaluateSecret anchor entry := by
  obtain ⟨key, secret⟩ := entry
  cases secret with
  | environment name => rfl
  | path path =>
      unfold evaluateSecret
      dsimp only
      rw [(h path rfl).path hmachine]

theorem evaluateAgent_congr (anchor : Anchor) (hmachine : scope.machine = scope'.machine)
    {agent : Config.SshAgent} (h : ∀ path ∈ agent.paths, scope.AgreesOn scope' path) :
    scope.evaluateAgent anchor agent = scope'.evaluateAgent anchor agent := by
  have hpaths : evaluateAll (fun path => storeOrRecord path
        (scope.resolvePath s!"'build_ssh' entry '{printableString agent.id}'" .buildSsh path
          anchor)) agent.paths =
      evaluateAll (fun path => storeOrRecord path
        (scope'.resolvePath s!"'build_ssh' entry '{printableString agent.id}'" .buildSsh path
          anchor)) agent.paths :=
    evaluateAll_congr fun path hpath => by rw [(h path hpath).path hmachine]
  unfold evaluateAgent
  rw [hpaths]

end same

section each

variable {scope : Scope} {anchor : Anchor}

theorem evaluateValue_ok {field : String} {value evaluated : Text}
    (h : scope.evaluateValue field value = .ok evaluated) : scope.Evaluates value := by
  unfold evaluateValue at h
  split at h
  · next v hv => exact ⟨v, hv⟩
  · cases h

theorem evaluateText_nil {field : String} {value : Text}
    (h : (scope.evaluateText field value).2 = []) : scope.Evaluates value :=
  (storeOrRecord_nil h).elim fun _ => evaluateValue_ok

theorem resolvePath_ok {field : String} {contained : HostPathField} {path resolved : Text}
    (h : scope.resolvePath field contained path anchor = .ok resolved) : scope.Evaluates path := by
  obtain ⟨evaluated, hevaluated, -⟩ := Except.bind_eq_ok.mp h
  exact evaluateValue_ok hevaluated

theorem evaluateHome_ok {home value : Text} (h : scope.evaluateHome home = .ok value) :
    scope.Evaluates home := by
  obtain ⟨evaluated, hevaluated, -⟩ := Except.bind_eq_ok.mp h
  exact evaluateValue_ok hevaluated

theorem evaluateVolume_nil (hanchor : anchor.batectShaped = false) {volume : Config.VolumeMount}
    (h : (scope.evaluateVolume anchor volume).2 = []) {path : Text}
    (hpath : volume.hostPath = some path) : scope.Evaluates path := by
  cases volume with
  | host mount =>
      cases hpath
      have hread : mount.localIsExpression anchor.batectShaped = true := by
        rw [hanchor]
        unfold Config.LocalVolumeMount.localIsExpression
        rw [Bool.and_false]
        rfl
      unfold evaluateVolume at h
      dsimp only at h
      rw [if_pos hread] at h
      exact (storeOrRecord_nil h).elim fun _ => resolvePath_ok
  | cache mount => cases hpath
  | tmpfs mount => cases hpath

theorem evaluateSecret_nil {entry : String × Config.BuildSecret}
    (h : (scope.evaluateSecret anchor entry).2 = []) {path : Text}
    (hpath : entry.2.file = some path) : scope.Evaluates path := by
  obtain ⟨key, secret⟩ := entry
  cases secret with
  | environment name => cases hpath
  | path path' =>
      cases hpath
      unfold evaluateSecret at h
      exact (storeOrRecord_nil h).elim fun _ => resolvePath_ok

theorem evaluateBuildDirectory_nil {path : Text}
    (h : (scope.evaluateBuildDirectory anchor path).2 = []) : scope.Evaluates path := by
  unfold evaluateBuildDirectory at h
  exact (storeOrRecord_nil h).elim fun _ => resolvePath_ok

theorem evaluateAgent_nil {agent : Config.SshAgent} (h : (scope.evaluateAgent anchor agent).2 = [])
    {path : Text} (hpath : path ∈ agent.paths) : scope.Evaluates path :=
  (storeOrRecord_nil (evaluateAll_nil h hpath)).elim fun _ => resolvePath_ok

end each

end Scope

section containers

variable {provenance : Provenance} {projectDirectory : Path} {name : String}
    {container : Config.Container} {task : Config.Task}

/-- Two scopes that agree on the expressions of a container evaluate it alike. -/
theorem evaluateContainer_congr {scope scope' : Scope} (hmachine : scope.machine = scope'.machine)
    (h : container.Every (scope.AgreesOn scope')) :
    evaluateContainer scope provenance projectDirectory name container =
      evaluateContainer scope' provenance projectDirectory name container := by
  have himage := fun supplier : String => evaluateField_congr container.image
    (f := fun image =>
      if imageIsExpression (provenance.anchor supplier projectDirectory).batectShaped then
        scope.evaluateText "'image'" image else (image, []))
    (g := fun image =>
      if imageIsExpression (provenance.anchor supplier projectDirectory).batectShaped then
        scope'.evaluateText "'image'" image else (image, []))
    fun image himage => by rw [(h.image image himage).text]
  have henvironment := evaluateList_congr container.environment
    fun e he => (h.environment e he).entry "environment"
  have hvolumes := fun anchor : Anchor => evaluateList_congr container.volumes
    fun volume hvolume => Scope.evaluateVolume_congr anchor hmachine (h.volumes volume hvolume)
  have hdirectory : ∀ anchor :
      Anchor, container.buildDirectory.map (scope.evaluateBuildDirectory anchor) =
      container.buildDirectory.map (scope'.evaluateBuildDirectory anchor) := fun anchor =>
    Option.map_congr fun path hpath => (h.buildDirectory path hpath).buildDirectory hmachine
  have hargs :=
    evaluateList_congr container.buildArgs fun e he => (h.buildArgs e he).entry "build_args"
  have hsecrets := fun anchor : Anchor => evaluateList_congr container.buildSecrets
    fun e he => Scope.evaluateSecret_congr anchor hmachine (h.buildSecrets e he)
  have hssh := fun anchor : Anchor => evaluateList_congr container.buildSsh
    fun agent hagent => Scope.evaluateAgent_congr anchor hmachine (h.buildSsh agent hagent)
  have hidentity := evaluateField_congr container.identity
    (f := fun identity =>
      ({ identity with
          home := (storeOrRecord identity.home (scope.evaluateHome identity.home)).1 },
        (storeOrRecord identity.home (scope.evaluateHome identity.home)).2))
    (g := fun identity =>
      ({ identity with
          home := (storeOrRecord identity.home (scope'.evaluateHome identity.home)).1 },
        (storeOrRecord identity.home (scope'.evaluateHome identity.home)).2))
    fun identity hidentity => by rw [(h.identity identity hidentity).home]
  unfold evaluateContainer
  dsimp only
  rw [himage, henvironment, hvolumes, hdirectory, hargs, hsecrets, hssh, hidentity]

/-- Where nothing of a container fails, each of its expressions evaluates. -/
theorem evaluateContainer_values {scope : Scope} (hnative : provenance.batectShaped = [])
    (h : (evaluateContainer scope provenance projectDirectory name container).2 = []) :
    container.Every scope.Evaluates := by
  have hanchor : ∀ supplier,
      (provenance.anchor supplier projectDirectory).batectShaped = false := by
    intro supplier
    unfold Provenance.anchor
    rw [hnative]
    rfl
  unfold evaluateContainer at h
  dsimp only at h
  simp only [List.append_eq_nil_iff] at h
  obtain ⟨⟨⟨⟨⟨⟨⟨himage, henvironment⟩, hvolumes⟩, hdirectory⟩, hargs⟩, hsecrets⟩, hssh⟩,
    hidentity⟩ := h
  constructor
  · intro image hset
    have hread := evaluateField_nil himage hset
    rw [hanchor] at hread
    exact Scope.evaluateText_nil hread
  · intro path hset
    rw [hset] at hdirectory
    exact Scope.evaluateBuildDirectory_nil hdirectory
  · intro volume hvolume path
    exact Scope.evaluateVolume_nil (hanchor _) (evaluateList_nil hvolumes hvolume)
  · intro e he
    exact Scope.evaluateText_nil (evaluateList_nil henvironment he)
  · intro e he
    exact Scope.evaluateText_nil (evaluateList_nil hargs he)
  · intro e he path
    exact Scope.evaluateSecret_nil (evaluateList_nil hsecrets he)
  · intro agent hagent path
    exact Scope.evaluateAgent_nil (evaluateList_nil hssh hagent)
  · intro identity hset
    exact (storeOrRecord_nil (evaluateField_nil hidentity hset)).elim fun _ => Scope.evaluateHome_ok

end containers

section tasks

variable {task : Config.Task}

/-- Two scopes that agree on the expressions of a task evaluate it alike. -/
theorem evaluateTask_congr {scope scope' : Scope} (h : task.Every (scope.AgreesOn scope')) :
    evaluateTask scope task = evaluateTask scope' task := by
  have hrun := evaluateField_congr task.run
    (f := fun run =>
      ({ run with
          environment := (evaluateField (evaluateAll (scope.evaluateEntry "run.environment"))
            run.environment).1 },
        (evaluateField (evaluateAll (scope.evaluateEntry "run.environment"))
          run.environment).2))
    (g := fun run =>
      ({ run with
          environment := (evaluateField (evaluateAll (scope'.evaluateEntry "run.environment"))
            run.environment).1 },
        (evaluateField (evaluateAll (scope'.evaluateEntry "run.environment"))
          run.environment).2))
    fun run hrun => by
      rw [evaluateList_congr run.environment fun e he => (h.run run hrun e he).entry "run.environment"]
  have heach : ∀ customise, task.customise = some customise → ∀ e ∈ customise.entries,
      evaluateCustomisation scope e.1 e.2 = evaluateCustomisation scope' e.1 e.2 := by
    intro customise hcustomise e he
    unfold evaluateCustomisation
    rw [evaluateList_congr e.2.environment fun v hv =>
      (h.customise customise hcustomise e he v hv).entry _]
  have hcustomise : evaluateField
      (fun customise : IndexMap String Config.TaskContainerCustomisation =>
      (customise.mapEntries fun name c => (evaluateCustomisation scope name c).1,
        customise.entries.flatMap fun e => (evaluateCustomisation scope e.1 e.2).2))
          task.customise =
      evaluateField (fun customise : IndexMap String Config.TaskContainerCustomisation =>
      (customise.mapEntries fun name c => (evaluateCustomisation scope' name c).1,
        customise.entries.flatMap fun e => (evaluateCustomisation scope' e.1 e.2).2))
          task.customise := by
    refine evaluateField_congr task.customise fun customise hcustomise => ?_
    have hentries : customise.mapEntries (fun name c => (evaluateCustomisation scope name c).1) =
        customise.mapEntries fun name c => (evaluateCustomisation scope' name c).1 :=
      IndexMap.mapEntries_congr fun e he => congrArg Prod.fst (heach customise hcustomise e he)
    exact Prod.ext hentries (List.flatMap_congr fun e he =>
      congrArg Prod.snd (heach customise hcustomise e he))
  unfold evaluateTask
  dsimp only
  rw [hrun, hcustomise]

/-- Where nothing of a task fails, each of its expressions evaluates. -/
theorem evaluateTask_values {scope : Scope} (h : (evaluateTask scope task).2 = []) :
    task.Every scope.Evaluates := by
  obtain ⟨hrun, hcustomise⟩ := List.append_eq_nil_iff.mp h
  constructor
  · intro run hset e he
    exact Scope.evaluateText_nil (evaluateList_nil (evaluateField_nil hrun hset) he)
  · intro customise hset e he v hv
    have hnone := List.flatMap_eq_nil_iff.mp (evaluateField_nil hcustomise hset) e he
    exact Scope.evaluateText_nil (evaluateList_nil hnone hv)

end tasks

end Ratect
