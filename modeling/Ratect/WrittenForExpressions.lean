import Ratect.OlderReferences
import Ratect.TomlExpressions

/-! # What a written-for check finds

`expressions_with_a_backslash` and `expressions_read_differently` (`written_for.rs`) report the
expressions of a project that mean something else than in 0.11.0.  What is found in no file means
the same (`sameBefore`), and a document's expressions are all looked at exactly if no struct of it
that is written as an array gives one (`strings_eq_iff`). -/

namespace Ratect.WrittenFor

open Config (containerField)

/-! ### The detectors -/

/-- `TomlFile`. -/
structure TomlFile where
  name : String
  document : Toml.Table

/-- `Hit`. -/
structure Hit where
  field : String
  file : String
deriving DecidableEq, Repr

/-- `expression_hits`: one hit for a field, whose values are adjacent. -/
def expressionHits (files : List TomlFile) (uses : Text → Bool) : List Hit :=
  (files.flatMap fun file => ((expressions file.document).filter fun e => uses e.2).map fun e =>
    ⟨e.1, file.name⟩).destutter (· ≠ ·)

/-- `expressions_with_a_backslash`. -/
def expressionsWithABackslash (files : List TomlFile) : List Hit :=
  expressionHits files fun value => '\\' ∈ value

/-- Whether the two readers give different references; what is malformed now is left to the
loader. -/
def readDifferently (unicode : Char → Bool) (value : Text) : Bool :=
  match Expressions.references unicode value with
  | .ok now => now ≠ referencesBefore value
  | .error _ => false

/-- `expressions_read_differently`. -/
def expressionsReadDifferently (unicode : Char → Bool) (files : List TomlFile) : List Hit :=
  expressionHits files (readDifferently unicode)

theorem expressionHits_eq_nil {files : List TomlFile} {uses : Text → Bool} :
    expressionHits files uses = [] ↔
      ∀ file ∈ files, ∀ e ∈ expressions file.document, uses e.2 = false := by
  unfold expressionHits
  rw [List.destutter_eq_nil, List.flatMap_eq_nil_iff]
  simp only [List.map_eq_nil_iff, List.filter_eq_nil_iff, Bool.not_eq_true]

/-! ### Expressions that mean the same -/

/-- An expression evaluates as it did, whatever the variables hold. -/
def SameBefore (unicode : Char → Bool) (text : Text) : Prop :=
  ∀ hostEnv configVars, Expressions.interpolate unicode text hostEnv configVars =
    replaceReferences (referencesBefore text) text hostEnv configVars

section same

variable {unicode : Char → Bool} {text : Text}

theorem sameBefore (hwell : Expressions.checkSyntax unicode text = .ok ())
    (hbackslash : '\\' ∉ text) (hsame : readDifferently unicode text = false) :
    SameBefore unicode text := by
  intro hostEnv configVars
  obtain ⟨ps, hps⟩ := (Expressions.checkSyntax_ok_iff text).mp hwell
  have htokens := Expressions.references_splits hps
  unfold readDifferently at hsame
  rw [htokens] at hsame
  have hbefore : Expressions.tokensFrom 0 ps = referencesBefore text := by simpa using hsame
  rw [interpolate_eq_replace hbackslash htokens, hbefore]

/-- The characters that both readers look at. -/
def Plain (text : Text) : Prop := ∀ c ∈ text, c ≠ '\\' ∧ c ≠ '$' ∧ c ≠ '<'

theorem Plain.splits (h : Plain text) : Expressions.Splits unicode (text.map .plain) text := by
  induction text with
  | nil => exact .nil
  | cons c text ih =>
      exact .cons (h c List.mem_cons_self) (ih fun d hd => h d (List.mem_cons_of_mem c hd))

theorem Plain.tokensFrom (text : Text) (i : ℕ) :
    Expressions.tokensFrom i (text.map .plain) = [] := by
  induction text generalizing i with
  | nil => rfl
  | cons c text ih => exact ih _

theorem Plain.referencesFrom (h : Plain text) (start : ℕ) : referencesFrom start text = [] := by
  induction text generalizing start with
  | nil => rw [WrittenFor.referencesFrom]
  | cons c text ih =>
      obtain ⟨-, hdollar, hangle⟩ := h c List.mem_cons_self
      have hnone : referenceBefore start c text = none := by
        unfold referenceBefore
        rw [if_pos ⟨hdollar, hangle⟩]
      rw [WrittenFor.referencesFrom]
      split
      · next token htoken =>
          rw [hnone] at htoken
          cases htoken
      · exact ih (fun d hd => h d (List.mem_cons_of_mem c hd)) _

/-- A text with no reference in it means itself to both. -/
theorem Plain.sameBefore (h : Plain text) : SameBefore unicode text := by
  refine WrittenFor.sameBefore (Expressions.checkSyntax_splits h.splits)
    (fun hmem => (h _ hmem).1 rfl) ?_
  unfold readDifferently
  rw [Expressions.references_splits h.splits, Plain.tokensFrom, referencesBefore, h.referencesFrom]
  rfl

end same

theorem plain_of_isDigit {c : Char} (h : c.isDigit = true) : c ≠ '\\' ∧ c ≠ '$' ∧ c ≠ '<' := by
  refine ⟨?_, ?_, ?_⟩ <;> rintro rfl <;> cases h

/-- A scalar that is no string has no reference in its text. -/
theorem plain_scalarText {value : Toml} {text : Text} (hscalar : value.scalarText = some text)
    (hstring : value.asStr = none) : Plain text := by
  cases value with
  | string t => cases hstring
  | integer n =>
      cases hscalar
      intro c hc
      cases n with
      | ofNat n => exact plain_of_isDigit (display_isDigit hc)
      | negSucc n =>
          rcases List.mem_cons.mp hc with rfl | hc
          · decide
          · exact plain_of_isDigit (display_isDigit hc)
  | float f =>
      cases hscalar
      intro c hc
      have hplain : "-.0123456789NaNinf".toList.all
          (fun c => c ≠ '\\' && c ≠ '$' && c ≠ '<') = true := rfl
      simpa [and_assoc] using List.all_eq_true.mp hplain c (f.written c hc)
  | boolean b =>
      cases hscalar
      have hplain : (Toml.displayBoolean b).all (fun c => c ≠ '\\' && c ≠ '$' && c ≠ '<') =
          true := by cases b <;> rfl
      intro c hc
      simpa [and_assoc] using List.all_eq_true.mp hplain c hc
  | _ => cases hscalar

/-! ### Structs written as arrays -/

/-- A struct that is written as an array is not looked into. -/
theorem byName_cases (shape : StructShape) (value : Toml) (field : String) :
    (value.isArray = true ∧ byName shape value field = none) ∨
      (value.isArray = false ∧ byName shape value field = shape.find value field) := by
  cases value with
  | array items => exact Or.inl ⟨rfl, rfl⟩
  | _ => exact Or.inr ⟨rfl, rfl⟩

/-- The strings among the values of some fields. -/
def strings (found : List (String × Toml)) : List (String × Text) :=
  found.filterMap (picked Toml.asStr)

/-- An environment without a string. -/
def NoStrings (environment : Option Toml) : Prop := ∀ e ∈ tableOf environment, e.2.asStr = none

/-- Whatever of a document is written as an array gives no string that is read as an expression. -/
structure NamedFields (document : Toml.Table) : Prop where
  identity : ∀ e ∈ tableOf (document.get? "containers"), ∀ identity,
    e.2.get? "identity" = some identity →
    identity.isArray = true → (identityShape.find identity "home").bind Toml.asStr = none
  agents : ∀ e ∈ tableOf (document.get? "containers"), ∀ agent ∈ arrayOf (e.2.get? "build_ssh"),
    agent.isArray = true → ∀ path ∈ arrayOf (sshAgentShape.find agent "paths"), path.asStr = none
  run : ∀ e ∈ tableOf (document.get? "tasks"), ∀ run, taskShape.find e.2 "run" = some run →
    e.2.isArray = true ∨ run.isArray = true → NoStrings (taskRunShape.find run "environment")
  customise : ∀ e ∈ tableOf (document.get? "tasks"), ∀ c ∈ tableOf (taskShape.find e.2 "customise"),
    e.2.isArray = true ∨ c.2.isArray = true → NoStrings (customisationShape.find c.2 "environment")

section lists

variable {α β : Type}

theorem append_eq_append_iff_of_sublist {s₁ s₂ t₁ t₂ : List α} (h₁ : s₁.Sublist t₁)
    (h₂ : s₂.Sublist t₂) : s₁ ++ s₂ = t₁ ++ t₂ ↔ s₁ = t₁ ∧ s₂ = t₂ := by
  refine ⟨fun h => ?_, fun h => by rw [h.1, h.2]⟩
  have hlength := congrArg List.length h
  rw [List.length_append, List.length_append] at hlength
  have hle₁ := h₁.length_le
  have hle₂ := h₂.length_le
  exact ⟨h₁.eq_of_length (by omega), h₂.eq_of_length (by omega)⟩

theorem flatMap_sublist {f g : α → List β} {l : List α} (h : ∀ a ∈ l, (f a).Sublist (g a)) :
    (l.flatMap f).Sublist (l.flatMap g) := by
  induction l with
  | nil => exact List.Sublist.refl _
  | cons a l ih =>
      rw [List.flatMap_cons, List.flatMap_cons]
      exact (h a List.mem_cons_self).append (ih fun b hb => h b (List.mem_cons_of_mem a hb))

theorem flatMap_eq_flatMap_iff {f g : α → List β} {l : List α} (h : ∀ a ∈ l, (f a).Sublist (g a)) :
    l.flatMap f = l.flatMap g ↔ ∀ a ∈ l, f a = g a := by
  induction l with
  | nil => simp
  | cons a l ih =>
      have hrest : ∀ b ∈ l, (f b).Sublist (g b) := fun b hb => h b (List.mem_cons_of_mem a hb)
      rw [List.flatMap_cons, List.flatMap_cons,
        append_eq_append_iff_of_sublist (h a List.mem_cons_self) (flatMap_sublist hrest), ih hrest,
        List.forall_mem_cons]

end lists

theorem strings_append (l m : List (String × Toml)) : strings (l ++ m) = strings l ++ strings m :=
  List.filterMap_append

theorem strings_flatMap {α : Type} (l : List α) (f : α → List (String × Toml)) :
    strings (l.flatMap f) = l.flatMap fun a => strings (f a) := List.filterMap_flatMap

theorem strings_sublist {l m : List (String × Toml)} (h : l.Sublist m) :
    (strings l).Sublist (strings m) :=
  h.filterMap _

theorem strings_inField {field : String} {value : Option Toml} :
    strings (inField field value) = inField field (value.bind Toml.asStr) := picked_inField _ rfl

theorem inField_eq_nil {α : Type} {field : String} {value : Option α} :
    inField field value = [] ↔ value = none := by
  cases value <;> simp [inField]

/-! ### What the walk leaves out -/

/-- An environment is looked into unless its struct, or the one around that, is written as an
array. -/
theorem environment_strings (field : String) (shape : StructShape) (value : Toml) :
    strings (environmentValues StructShape.find field shape value) = [] ↔
      NoStrings (shape.find value "environment") := by
  unfold environmentValues NoStrings
  rw [strings_flatMap, List.flatMap_eq_nil_iff]
  simp only [strings_inField, inField_eq_nil, Option.bind_some]

theorem environment_sublist (field : String) (shape : StructShape) (value : Toml) :
    (environmentValues byName field shape value).Sublist
    (environmentValues StructShape.find field shape value) := by
  unfold environmentValues
  rcases byName_cases shape value "environment" with ⟨-, h⟩ | ⟨-, h⟩
  · rw [h]
    exact List.nil_sublist _
  · rw [h]

theorem environment_strings_iff (field : String) (shape : StructShape) (value : Toml) :
    strings (environmentValues byName field shape value) =
      strings (environmentValues StructShape.find field shape value) ↔
      (value.isArray = true → NoStrings (shape.find value "environment")) := by
  rcases byName_cases shape value "environment" with ⟨harray, h⟩ | ⟨harray, h⟩
  · have hnone : environmentValues byName field shape value = [] := by
      unfold environmentValues
      rw [h]
      rfl
    rw [hnone, eq_comm]
    change strings _ = [] ↔ _
    rw [environment_strings, harray]
    simp
  · have hsame : environmentValues byName field shape value =
        environmentValues StructShape.find field shape value := by
      unfold environmentValues
      rw [h]
    rw [hsame, harray]
    simp

theorem agentPaths_sublist (field : String) (agent : Toml) :
    (agentPaths byName field agent).Sublist (agentPaths StructShape.find field agent) := by
  unfold agentPaths
  rcases byName_cases sshAgentShape agent "paths" with ⟨-, h⟩ | ⟨-, h⟩
  · rw [h]
    exact List.nil_sublist _
  · rw [h]

theorem agentPaths_strings_iff (field : String) (agent : Toml) :
    strings (agentPaths byName field agent) = strings (agentPaths StructShape.find field agent) ↔
      (agent.isArray = true →
        ∀ path ∈ arrayOf (sshAgentShape.find agent "paths"), path.asStr = none) := by
  unfold agentPaths
  rcases byName_cases sshAgentShape agent "paths" with ⟨harray, h⟩ | ⟨harray, h⟩
  · rw [h, harray, eq_comm]
    change strings _ = [] ↔ _
    rw [strings_flatMap, List.flatMap_eq_nil_iff]
    simp only [strings_inField, inField_eq_nil, Option.bind_some, forall_true_left]
  · rw [h, harray]
    simp

theorem identityHome_sublist (field : String) (identity : Option Toml) :
    (identityHome byName field identity).Sublist
    (identityHome StructShape.find field identity) := by
  unfold identityHome
  cases identity with
  | none => exact List.Sublist.refl _
  | some identity =>
      rw [Option.bind_some, Option.bind_some]
      rcases byName_cases identityShape identity "home" with ⟨-, h⟩ | ⟨-, h⟩
      · rw [h]
        exact List.nil_sublist _
      · rw [h]

theorem identityHome_strings_iff (field : String) (identity : Option Toml) :
    strings (identityHome byName field identity) =
      strings (identityHome StructShape.find field identity) ↔
      ∀ i, identity = some i → i.isArray = true →
        (identityShape.find i "home").bind Toml.asStr = none := by
  unfold identityHome
  cases identity with
  | none => simp
  | some identity =>
      rw [Option.bind_some, Option.bind_some]
      rcases byName_cases identityShape identity "home" with ⟨harray, h⟩ | ⟨harray, h⟩
      · rw [h, eq_comm]
        change strings _ = [] ↔ _
        rw [strings_inField, inField_eq_nil]
        simp [harray]
      · rw [h]
        simp [harray]

theorem container_sublist (name : String) (container : Toml) :
    (containerValues byName name container).Sublist
    (containerValues StructShape.find name container) :=
  ((List.Sublist.refl _).append (flatMap_sublist fun _ _ => agentPaths_sublist _ _)).append
    (identityHome_sublist _ _)

theorem container_strings_iff (name : String) (container : Toml) :
    strings (containerValues byName name container) =
      strings (containerValues StructShape.find name container) ↔
      (∀ agent ∈ arrayOf (container.get? "build_ssh"), agent.isArray = true →
        ∀ path ∈ arrayOf (sshAgentShape.find agent "paths"), path.asStr = none) ∧
      ∀ identity, container.get? "identity" = some identity → identity.isArray = true →
        (identityShape.find identity "home").bind Toml.asStr = none := by
  have hagents : ∀ agent ∈ arrayOf (container.get? "build_ssh"),
      (strings (agentPaths byName (containerField name "build_ssh.paths") agent)).Sublist
        (strings (agentPaths StructShape.find (containerField name "build_ssh.paths") agent)) :=
    fun agent _ => strings_sublist (agentPaths_sublist _ agent)
  unfold containerValues
  rw [strings_append, strings_append, strings_append, strings_append,
    List.append_assoc, List.append_assoc, List.append_cancel_left_eq,
    strings_flatMap, strings_flatMap,
    append_eq_append_iff_of_sublist (flatMap_sublist hagents)
      (strings_sublist (identityHome_sublist _ _)),
    flatMap_eq_flatMap_iff hagents, identityHome_strings_iff]
  simp only [agentPaths_strings_iff]

theorem runValues_sublist (name : String) (task : Toml) :
    (runValues byName name task).Sublist (runValues StructShape.find name task) := by
  unfold runValues
  rcases byName_cases taskShape task "run" with ⟨-, h⟩ | ⟨-, h⟩
  · rw [h]
    exact List.nil_sublist _
  · rw [h]
    exact flatMap_sublist fun run _ => environment_sublist _ _ run

theorem runValues_strings_iff (name : String) (task : Toml) :
    strings (runValues byName name task) = strings (runValues StructShape.find name task) ↔
      ∀ run, taskShape.find task "run" = some run → task.isArray = true ∨ run.isArray = true →
        NoStrings (taskRunShape.find run "environment") := by
  unfold runValues
  rcases byName_cases taskShape task "run" with ⟨harray, h⟩ | ⟨harray, h⟩
  · rw [h, harray, eq_comm]
    change strings _ = [] ↔ _
    rw [strings_flatMap, List.flatMap_eq_nil_iff]
    simp only [environment_strings, Option.mem_toList, true_or, forall_true_left]
  · rw [h, harray, strings_flatMap, strings_flatMap,
      flatMap_eq_flatMap_iff fun run _ => strings_sublist (environment_sublist _ _ run)]
    simp only [environment_strings_iff, Option.mem_toList, Bool.false_eq_true, false_or]

theorem customiseValues_sublist (name : String) (task : Toml) :
    (customiseValues byName name task).Sublist (customiseValues StructShape.find name task) := by
  unfold customiseValues
  rcases byName_cases taskShape task "customise" with ⟨-, h⟩ | ⟨-, h⟩
  · rw [h]
    exact List.nil_sublist _
  · rw [h]
    exact flatMap_sublist fun c _ => environment_sublist _ _ c.2

theorem customiseValues_strings_iff (name : String) (task : Toml) :
    strings (customiseValues byName name task) =
      strings (customiseValues StructShape.find name task) ↔
      ∀ c ∈ tableOf (taskShape.find task "customise"), task.isArray = true ∨ c.2.isArray = true →
        NoStrings (customisationShape.find c.2 "environment") := by
  unfold customiseValues
  rcases byName_cases taskShape task "customise" with ⟨harray, h⟩ | ⟨harray, h⟩
  · rw [h, harray, eq_comm]
    change strings _ = [] ↔ _
    rw [strings_flatMap, List.flatMap_eq_nil_iff]
    simp only [environment_strings, true_or, forall_true_left]
  · rw [h, harray, strings_flatMap, strings_flatMap,
      flatMap_eq_flatMap_iff fun c _ => strings_sublist (environment_sublist _ _ c.2)]
    simp only [environment_strings_iff, Bool.false_eq_true, false_or]

theorem task_strings_iff (name : String) (task : Toml) :
    strings (taskValues byName name task) = strings (taskValues StructShape.find name task) ↔
      (∀ run, taskShape.find task "run" = some run → task.isArray = true ∨ run.isArray = true →
        NoStrings (taskRunShape.find run "environment")) ∧
      ∀ c ∈ tableOf (taskShape.find task "customise"), task.isArray = true ∨ c.2.isArray = true →
        NoStrings (customisationShape.find c.2 "environment") := by
  unfold taskValues
  rw [strings_append, strings_append,
    append_eq_append_iff_of_sublist (strings_sublist (runValues_sublist name task))
    (strings_sublist (customiseValues_sublist name task)), runValues_strings_iff,
    customiseValues_strings_iff]

/-- The walk finds every string that is read as an expression if and only if none is in a struct
written as an array. -/
theorem strings_eq_iff (document : Toml.Table) :
    expressions document = strings (values StructShape.find document) ↔ NamedFields document := by
  have hcontainers : ∀ e ∈ tableOf (document.get? "containers"),
      (strings (containerValues byName e.1 e.2)).Sublist
        (strings (containerValues StructShape.find e.1 e.2)) :=
    fun e _ => strings_sublist (container_sublist e.1 e.2)
  have htasks : ∀ e ∈ tableOf (document.get? "tasks"),
      (strings (taskValues byName e.1 e.2)).Sublist
        (strings (taskValues StructShape.find e.1 e.2)) :=
    fun e _ => strings_sublist
      ((runValues_sublist e.1 e.2).append (customiseValues_sublist e.1 e.2))
  change strings (values byName document) = _ ↔ _
  unfold values
  rw [strings_append, strings_append, strings_flatMap, strings_flatMap,
    strings_flatMap, strings_flatMap,
    append_eq_append_iff_of_sublist (flatMap_sublist hcontainers) (flatMap_sublist htasks),
    flatMap_eq_flatMap_iff hcontainers, flatMap_eq_flatMap_iff htasks]
  simp only [container_strings_iff, task_strings_iff]
  constructor
  · rintro ⟨h, h'⟩
    exact ⟨fun e he => (h e he).2, fun e he => (h e he).1, fun e he => (h' e he).1,
      fun e he => (h' e he).2⟩
  · intro h
    exact ⟨fun e he => ⟨h.agents e he, h.identity e he⟩, fun e he => ⟨h.run e he, h.customise e he⟩⟩

/-! ### None found -/

/-- A scalar's text, if its expression is well formed. -/
def checkedText (unicode : Char → Bool) (value : Toml) : Option Text :=
  value.scalarText.filter fun text => (Expressions.checkSyntax unicode text).isOk

theorem readScalar_ok {unicode : Char → Bool} {value : Toml} {text : Text}
    (h : readScalar unicode value = .ok text) :
    value.scalarText = some text ∧ Expressions.checkSyntax unicode text = .ok () := by
  unfold readScalar at h
  split at h
  · cases h
  · next written hwritten =>
      obtain ⟨rfl, hchecked⟩ := checkedExpression_ok h
      exact ⟨hwritten, hchecked⟩

theorem picks_scalarText (unicode : Char → Bool) : Picks unicode Toml.scalarText :=
  fun _ _ h => (readScalar_ok h).1

theorem picks_checkedText (unicode : Char → Bool) : Picks unicode (checkedText unicode) := by
  intro value text h
  obtain ⟨hscalar, hchecked⟩ := readScalar_ok h
  unfold checkedText
  rw [hscalar, Option.filter_some, hchecked]
  rfl

/-- Every expression of a file that was read is well formed. -/
theorem checkSyntax_of_mem {unicode : Char → Bool} {others : OtherFields} {document : Toml.Table}
    {file : ConfigFile} (h : readConfigFile unicode others document = .ok file) {e : String × Text}
    (he : e ∈ file.expressions) : Expressions.checkSyntax unicode e.2 = .ok () := by
  rw [← readConfigFile_expressions (picks_checkedText unicode) h] at he
  obtain ⟨⟨field, value⟩, -, hpicked⟩ := List.mem_filterMap.mp he
  obtain ⟨text, htext, rfl⟩ := Option.map_eq_some_iff.mp hpicked
  obtain ⟨-, hok⟩ := Option.filter_eq_some_iff.mp htext
  change Expressions.checkSyntax unicode text = .ok ()
  cases hcheck : Expressions.checkSyntax unicode text with
  | ok value => rfl
  | error error =>
      rw [hcheck] at hok
      cases hok

/-- What evaluation reads of the containers and tasks of a project, whatever they inherit: their
expressions, each of them, and no other text. -/
structure EvaluatesExactly (containers : IndexMap String Config.Container)
    (tasks : IndexMap String Config.Task) : Prop where
  containersOnly : ∀ name container suppliers, Inherits containers name container suppliers →
    ∀ provenance projectDirectory (scope scope' : Scope), scope.machine = scope'.machine →
      (∀ e ∈ containers.entries, ∀ x ∈ e.2.expressions e.1,
        scope.outcome x.2 = scope'.outcome x.2) →
      evaluateContainer scope provenance projectDirectory name container =
        evaluateContainer scope' provenance projectDirectory name container
  containersEach : ∀ name container suppliers, Inherits containers name container suppliers →
    ∀ (provenance : Provenance) projectDirectory scope, provenance.batectShaped = [] →
      (evaluateContainer scope provenance projectDirectory name container).2 = [] →
      ∀ declared, containers.get? name = some declared → ∀ x ∈ declared.expressions name,
        ∃ evaluated, scope.outcome x.2 = .ok evaluated
  tasksOnly : ∀ e ∈ tasks.entries, ∀ scope scope' : Scope,
    (∀ x ∈ e.2.expressions e.1, scope.outcome x.2 = scope'.outcome x.2) →
      evaluateTask scope e.2 = evaluateTask scope' e.2
  tasksEach : ∀ e ∈ tasks.entries, ∀ scope, (evaluateTask scope e.2).2 = [] →
    ∀ x ∈ e.2.expressions e.1, ∃ evaluated, scope.outcome x.2 = .ok evaluated

theorem evaluatesExactly (containers : IndexMap String Config.Container)
    (tasks : IndexMap String Config.Task) :
    EvaluatesExactly containers tasks where
  containersOnly _ _ _ hinherits _ _ _ _ hmachine h :=
    evaluateContainer_congr hmachine
      (hinherits.expressions.2 fun e he => Config.Container.every_iff.mp (h e he))
  containersEach _ _ _ hinherits _ _ _ hnative h declared hdeclared :=
    Config.Container.every_iff.mpr
      (hinherits.expressions.1 declared hdeclared (evaluateContainer_values hnative h))
  tasksOnly _ _ _ _ h := evaluateTask_congr (Config.Task.every_iff.mp h)
  tasksEach _ _ _ h := Config.Task.every_iff.mpr (evaluateTask_values h)

/-- The walk finds every string of a document that is read as an expression, and where nothing is
found in its project, every expression of its file evaluates as before. -/
structure NothingMissed (unicode : Char → Bool) (document : Toml.Table)
    (file : ConfigFile) : Prop where
  found : expressions document = strings (values StructShape.find document)
  sound : ∀ files : List TomlFile, (∃ name, ⟨name, document⟩ ∈ files) →
    expressionsWithABackslash files = [] →
    expressionsReadDifferently unicode files = [] → ∀ e ∈ file.expressions, SameBefore unicode e.2

theorem nothingMissed {unicode : Char → Bool} {others : OtherFields} {document : Toml.Table}
    {file : ConfigFile} (h : readConfigFile unicode others document = .ok file)
    (hnamed : NamedFields document) :
    NothingMissed unicode document file where
  found := (strings_eq_iff document).mpr hnamed
  sound := by
    rintro files ⟨name, hfile⟩ hbackslash hdiffers e he
    have hchecked := checkSyntax_of_mem h he
    rw [← readConfigFile_expressions (picks_scalarText unicode) h] at he
    obtain ⟨⟨field, value⟩, hvalue, hpicked⟩ := List.mem_filterMap.mp he
    obtain ⟨text, hscalar, rfl⟩ := Option.map_eq_some_iff.mp hpicked
    cases hstring : value.asStr with
    | none => exact (plain_scalarText hscalar hstring).sameBefore
    | some t =>
        have htext : t = text := by
          cases value with
          | string written =>
              cases hstring
              exact Option.some.inj hscalar
          | _ => cases hstring
        have hfound : (field, text) ∈ expressions document := by
          rw [(strings_eq_iff document).mpr hnamed]
          exact List.mem_filterMap.mpr ⟨(field, value), hvalue, by
            unfold picked; rw [hstring, htext]; rfl⟩
        have hnone := expressionHits_eq_nil.mp hbackslash _ hfile _ hfound
        exact sameBefore hchecked (of_decide_eq_false hnone)
          (expressionHits_eq_nil.mp hdiffers _ hfile _ hfound)

/-- **None found.**  Of every document that is read: the values that the walk finds where it looks
up fields as the readers do are its file's expressions, which are what evaluation reads.  The walk
by names finds all the strings among them, so that nothing found means that every one evaluates as
before, if and only if no struct that is written as an array gives one. -/
theorem none_found_iff {unicode : Char → Bool} {others : OtherFields} {document : Toml.Table}
    {file : ConfigFile} (h : readConfigFile unicode others document = .ok file) :
    (values StructShape.find document).filterMap (picked Toml.scalarText) = file.expressions ∧
      (∀ containers tasks, EvaluatesExactly containers tasks) ∧
      (NothingMissed unicode document file ↔ NamedFields document) :=
  ⟨readConfigFile_expressions (picks_scalarText unicode) h, evaluatesExactly,
    fun hmissed => (strings_eq_iff document).mp hmissed.found, nothingMissed h⟩

/-- Readers of files that hold a name and containers with nothing else. -/
def plainReaders : OtherFields where
  container _ := .ok {}
  task _ := .ok {}
  taskRun fields :=
    (readField readString fields "container").map fun name => { container := String.ofList name }
  customisation _ := .ok {}
  file fields := (readOption readString fields "project_name").map fun name =>
    { projectName := name.map String.ofList }
  cacheScope _ := .ok .project
  additionalUsers _ := .ok []

/-- A file with a container `c` that has an identity. -/
def identityFile (identity : Toml) : Toml.Table :=
  [("project_name", .string "demo".toList),
    ("containers", .table [("c", .table [("image", .string "alpine".toList),
    ("identity", identity)])])]

/-- `identity` as a table. -/
theorem none_found_iff_home : ∃ file, readConfigFile (fun _ => false) plainReaders
      (identityFile (.table [("home", .string "/home/$USER".toList)])) = .ok file ∧
    NothingMissed (fun _ => false)
      (identityFile (.table [("home", .string "/home/$USER".toList)])) file := by
  have hrun : (readConfigFile (fun _ => false) plainReaders
      (identityFile (.table [("home", .string "/home/$USER".toList)]))).passes
        (fun _ => true) = true := by
    decide +kernel
  obtain ⟨file, hfile, -⟩ := Except.exists_of_passes hrun
  refine ⟨file, hfile, (none_found_iff hfile).2.2.mpr ⟨?_, ?_, ?_, ?_⟩⟩
  · intro e he identity hidentity harray
    obtain rfl := List.mem_singleton.mp he
    cases hidentity
    cases harray
  · intro e he agent hagent
    obtain rfl := List.mem_singleton.mp he
    cases hagent
  · intro e he
    cases he
  · intro e he
    cases he

/-- `identity = ['/\$U']`: the home is read, no detector looks at it, and it means something else
than before. -/
theorem array_is_missed : ∃ file, readConfigFile (fun _ => false) plainReaders
      (identityFile (.array [.string ['/', '\\', '$', 'U']])) = .ok file ∧
    expressions (identityFile (.array [.string ['/', '\\', '$', 'U']])) ≠
      strings (values StructShape.find (identityFile (.array [.string ['/', '\\', '$', 'U']]))) ∧
    expressionsWithABackslash
      [⟨"ratect.toml", identityFile (.array [.string ['/', '\\', '$', 'U']])⟩] = [] ∧
    expressionsReadDifferently (fun _ => false)
      [⟨"ratect.toml", identityFile (.array [.string ['/', '\\', '$', 'U']])⟩] = [] ∧
    ∃ e ∈ file.expressions, ¬ SameBefore (fun _ => false) e.2 := by
  have hrun : (readConfigFile (fun _ => false) plainReaders
      (identityFile (.array [.string ['/', '\\', '$', 'U']]))).passes
      (fun file => file.expressions = [("containers.c.image", "alpine".toList),
        ("containers.c.identity.home", ['/', '\\', '$', 'U'])]) = true := by
    decide +kernel
  obtain ⟨file, hfile, hexpressions⟩ := Except.exists_of_passes hrun
  refine ⟨file, hfile, by decide +kernel, by decide +kernel, by decide +kernel, ("containers.c.identity.home",
    ['/', '\\', '$', 'U']), ?_, fun hsame => ?_⟩
  · rw [of_decide_eq_true hexpressions]
    simp
  · have hvalue := hsame (fun _ => some ['x']) fun _ => none
    have hnow : Expressions.interpolate (fun _ => false) ['/', '\\', '$', 'U']
        (fun _ => some ['x']) (fun _ => none) =
        .ok ['/', '$', 'U'] := by decide +kernel
    have hbefore : replaceReferences (referencesBefore ['/', '\\', '$', 'U']) ['/', '\\', '$', 'U']
        (fun _ => some ['x'])
        (fun _ => none) = .ok ['/', '\\', 'x'] := by decide +kernel
    rw [hnow, hbefore] at hvalue
    cases hvalue

end Ratect.WrittenFor
