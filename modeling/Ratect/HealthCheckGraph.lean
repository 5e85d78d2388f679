import Ratect.Companions
import Ratect.DependencyGraph

/-! # External health checks in the graph

`expand_external_health_checks` (`config.rs`), as a change to the graph of containers and tasks.
Every list of dependencies keeps what it held and gains one companion for each checked container in
it (`expand_container`), so that the dependencies are those of `WithCompanions`, whose rules then
say what becomes of circles and of the containers of a task (`expansion_preserves_graph`). -/

namespace Ratect

/-- The containers with an external health check. -/
def Config.checkedNames (config : Config) : List String := config.checked.map Prod.fst

/-- A container depends on a name. -/
def Config.DependsOn (config : Config) (name dependency : String) : Prop :=
  dependency ∈ dependenciesOfName config.containers name

theorem Config.checkedNames_sublist (config : Config) :
    config.checkedNames.Sublist config.containers.keys :=
  IndexMap.keys_filterMap_sublist Config.Container.externalHealthCheck config.containers.entries

theorem externalHealthCheckContainerName_injective {c c' : String}
    (h : externalHealthCheckContainerName c = externalHealthCheckContainerName c') : c = c' := by
  unfold externalHealthCheckContainerName at h
  have hlist := congrArg String.toList h
  rw [String.toList_append, String.toList_append] at hlist
  exact String.toList_injective (List.append_cancel_left hlist)

/-! ### What was refused -/

/-- No reference is to a name that is going to be generated. -/
structure CompanionsReserved (config : Config) : Prop where
  declared : ∀ c ∈ config.checkedNames, externalHealthCheckContainerName c ∉ config.containers.keys
  containers : ∀ c ∈ config.checkedNames, ∀ name,
    ¬ config.DependsOn name (externalHealthCheckContainerName c)
  runs : ∀ c ∈ config.checkedNames, ∀ name task run, config.tasks.get? name = some task →
    task.run = some run →
    run.container ≠ externalHealthCheckContainerName c
  tasks : ∀ c ∈ config.checkedNames, ∀ name task, config.tasks.get? name = some task →
    externalHealthCheckContainerName c ∉ task.dependencies.getD []

theorem checkReserved_ok {config : Config} {c : String} (h : checkReserved config c = .ok ()) :
    externalHealthCheckContainerName c ∉ config.containers.keys ∧
      (∀ name, ¬ config.DependsOn name (externalHealthCheckContainerName c)) ∧
      ∀ name task, config.tasks.get? name = some task →
        (∀ run, task.run = some run → run.container ≠ externalHealthCheckContainerName c) ∧
          externalHealthCheckContainerName c ∉ task.dependencies.getD [] := by
  unfold checkReserved at h
  obtain ⟨⟨⟩, hdeclared, h⟩ := Except.bind_eq_ok.mp h
  obtain ⟨⟨⟩, hcontainers, htasks⟩ := Except.bind_eq_ok.mp h
  rw [Except.ensure_eq_ok] at hdeclared
  rw [Except.forM_eq_ok] at hcontainers htasks
  refine ⟨hdeclared, ?_, ?_⟩
  · intro name hdepends
    unfold Config.DependsOn dependenciesOfName at hdepends
    cases hget : config.containers.get? name with
    | none =>
        rw [hget] at hdepends
        cases hdepends
    | some container =>
        rw [hget] at hdepends
        exact Except.ensure_eq_ok.mp (hcontainers _ (IndexMap.mem_entries_of_get? hget)) hdepends
  · intro name task hget
    obtain ⟨⟨⟩, hrun, hdependencies⟩ :=
      Except.bind_eq_ok.mp (htasks _ (IndexMap.mem_entries_of_get? hget))
    rw [Except.ensure_eq_ok] at hrun hdependencies
    refine ⟨?_, hdependencies⟩
    intro run htask
    dsimp only at hrun
    rw [htask] at hrun
    simpa using hrun

theorem companionsReserved {threePlaces : ℕ → String} {config config' : Config}
    (h : expandExternalHealthChecks threePlaces config = .ok config') :
    CompanionsReserved config := by
  unfold expandExternalHealthChecks at h
  obtain ⟨⟨⟩, -, h⟩ := Except.bind_eq_ok.mp h
  obtain ⟨⟨⟩, hreserved, -⟩ := Except.bind_eq_ok.mp h
  rw [Except.forM_eq_ok] at hreserved
  have hok : ∀ c ∈ config.checkedNames, checkReserved config c = .ok () := by
    intro c hc
    obtain ⟨e, he, rfl⟩ := List.mem_map.mp hc
    exact hreserved e he
  exact ⟨fun c hc => (checkReserved_ok (hok c hc)).1, fun c hc => (checkReserved_ok (hok c hc)).2.1,
    fun c hc name task run hget hrun =>
      ((checkReserved_ok (hok c hc)).2.2 name task hget).1 run hrun,
    fun c hc name task hget => ((checkReserved_ok (hok c hc)).2.2 name task hget).2⟩

/-! ### One list of dependencies -/

section list

variable (skip : String → Prop) [DecidablePred skip]

/-- The companions that a list of dependencies gains. -/
def gainedCompanions (names dependencies : List String) : List String :=
  (names.filter fun c => ¬ skip c ∧ c ∈ dependencies).map externalHealthCheckContainerName

/-- The lists of dependencies that `expand_external_health_checks` goes over: `skip` says for which
containers a list is left alone. -/
def awaitAll (names : List String) (dependencies : Option (List String)) : Option (List String) :=
  names.foldl (fun dependencies c =>
    if skip c then dependencies
    else addDependencyAfter c (externalHealthCheckContainerName c) dependencies)
    dependencies

theorem awaitAll_none (names : List String) : awaitAll skip names none = none := by
  unfold awaitAll
  induction names with
  | nil => rfl
  | cons c names ih =>
      rw [List.foldl_cons]
      simpa [addDependencyAfter] using ih

variable {skip}

theorem mem_gainedCompanions {names dependencies : List String} {d : String} :
    d ∈ gainedCompanions skip names dependencies ↔
      ∃ c ∈ names, ¬ skip c ∧ c ∈ dependencies ∧ d = externalHealthCheckContainerName c := by
  unfold gainedCompanions
  simp only [List.mem_map, List.mem_filter, decide_eq_true_eq, and_assoc, @eq_comm _ d]

/-- A list that names no companion gains that of each checked container in it, once. -/
theorem awaitAll_some {names dependencies : List String} (hnodup : names.Nodup)
    (hfresh : ∀ c ∈ names, externalHealthCheckContainerName c ∉ dependencies)
    (happart : ∀ c ∈ names, ∀ c' ∈ names, c ≠ externalHealthCheckContainerName c') :
    awaitAll skip names (some dependencies) =
      some (dependencies ++ gainedCompanions skip names dependencies) := by
  unfold awaitAll
  induction names generalizing dependencies with
  | nil => simp [gainedCompanions]
  | cons c names ih =>
      obtain ⟨hc, hnodup⟩ := List.nodup_cons.mp hnodup
      have happart' : ∀ c ∈ names, ∀ c' ∈ names, c ≠ externalHealthCheckContainerName c' :=
        fun c hc c' hc' => happart c (List.mem_cons_of_mem _ hc) c' (List.mem_cons_of_mem _ hc')
      have hfresh' : ∀ c ∈ names, externalHealthCheckContainerName c ∉ dependencies :=
        fun c hc => hfresh c (List.mem_cons_of_mem _ hc)
      rw [List.foldl_cons]
      by_cases hgains : ¬ skip c ∧ c ∈ dependencies
      · have hstep : (if skip c then some dependencies
            else addDependencyAfter c (externalHealthCheckContainerName c) (some dependencies)) =
            some (dependencies ++ [externalHealthCheckContainerName c]) := by
          rw [if_neg hgains.1]
          exact if_pos ⟨hgains.2, hfresh c List.mem_cons_self⟩
        rw [hstep, ih hnodup ?_ happart']
        · have hsame : gainedCompanions skip names
            (dependencies ++ [externalHealthCheckContainerName c]) =
              gainedCompanions skip names dependencies := by
            unfold gainedCompanions
            congr 1
            apply List.filter_congr
            intro c' hc'
            have hne := happart c' (List.mem_cons_of_mem _ hc') c List.mem_cons_self
            simp [hne]
          rw [hsame]
          unfold gainedCompanions
          rw [List.filter_cons_of_pos (by simpa using hgains), List.map_cons, List.append_assoc,
            List.singleton_append]
        · intro c' hc' hmem
          rcases List.mem_append.mp hmem with hmem | hmem
          · exact hfresh' c' hc' hmem
          · rw [externalHealthCheckContainerName_injective (List.mem_singleton.mp hmem)] at hc'
            exact hc hc'
      · have hstep : (if skip c then some dependencies
            else addDependencyAfter c (externalHealthCheckContainerName c) (some dependencies)) =
            some dependencies := by
          by_cases hskip : skip c
          · exact if_pos hskip
          · rw [if_neg hskip]
            exact if_neg fun h => hgains ⟨hskip, h.1⟩
        rw [hstep, ih hnodup hfresh' happart']
        unfold gainedCompanions
        rw [List.filter_cons_of_neg (by simpa using hgains)]

theorem gainedCompanions_nodup {names dependencies : List String} (hnodup : names.Nodup) :
    (gainedCompanions skip names dependencies).Nodup := by
  unfold gainedCompanions
  exact (hnodup.filter _).map fun _ _ h => externalHealthCheckContainerName_injective h

end list

/-! ### Every list -/

/-- The containers whose lists are left alone for a checked container: itself and its companion. -/
abbrev Unawaited (name c : String) : Prop := name = c ∨ name = externalHealthCheckContainerName c

theorem awaitAll_containers (names : List String) (config : Config) (name : String) :
    (names.foldl Config.awaitCompanion config).containers.get? name =
      (config.containers.get? name).map fun container =>
        { container with
          dependencies := awaitAll (Unawaited name) names container.dependencies } := by
  induction names generalizing config with
  | nil => simp [awaitAll]
  | cons c names ih =>
      rw [List.foldl_cons, ih]
      unfold Config.awaitCompanion
      dsimp only
      rw [IndexMap.get?_mapEntries, Option.map_map]
      congr 1
      funext container
      dsimp only [Function.comp]
      unfold awaitAll
      rw [List.foldl_cons]
      by_cases hskip : Unawaited name c
      · rw [if_pos hskip, if_pos hskip]
      · rw [if_neg hskip, if_neg hskip]

theorem awaitAll_tasks (names : List String) (config : Config) (name : String) :
    (names.foldl Config.awaitCompanion config).tasks.get? name =
      (config.tasks.get? name).map fun task =>
        { task with dependencies := awaitAll (fun _ => False) names task.dependencies } := by
  induction names generalizing config with
  | nil => simp [awaitAll]
  | cons c names ih =>
      rw [List.foldl_cons, ih]
      unfold Config.awaitCompanion
      dsimp only
      rw [IndexMap.get?_mapEntries, Option.map_map]
      rfl

/-- What is generated and awaited. -/
theorem expand_eq {threePlaces : ℕ → String} {config config' : Config}
    (h : expandExternalHealthChecks threePlaces config = .ok config') :
    config' = config.checkedNames.foldl Config.awaitCompanion
      (config.checked.foldl (Config.addCompanion threePlaces) config) := by
  unfold expandExternalHealthChecks at h
  obtain ⟨⟨⟩, -, h⟩ := Except.bind_eq_ok.mp h
  obtain ⟨⟨⟩, -, h⟩ := Except.bind_eq_ok.mp h
  cases h
  unfold Config.checkedNames
  rw [List.foldl_map]

section expansion

variable {threePlaces : ℕ → String} {config config' : Config}

/-- A container that was there has its list of dependencies extended. -/
theorem expand_container (h : expandExternalHealthChecks threePlaces config = .ok config')
    {name : String} {container : Config.Container}
    (hget : config.containers.get? name = some container) :
    config'.containers.get? name = some { container with
      dependencies := awaitAll (Unawaited name) config.checkedNames container.dependencies } := by
  obtain ⟨hkeys, hentries, -⟩ := addCompanions threePlaces config.checked config
  have hmem : name ∈ (config.checked.foldl (Config.addCompanion threePlaces)
      config).containers.keys :=
    (hkeys name).mpr (Or.inl (IndexMap.mem_keys_of_mem (IndexMap.mem_entries_of_get? hget)))
  obtain ⟨generated, hgenerated⟩ := Option.isSome_iff_exists.mp (IndexMap.get?_isSome_iff.mpr hmem)
  rw [expand_eq h, awaitAll_containers, hgenerated]
  rcases hentries name generated (IndexMap.mem_entries_of_get? hgenerated) with
      hsame | ⟨e, he, hname, -⟩
  · rw [IndexMap.get?_of_mem hsame] at hget
    rw [Option.some.inj hget]
    rfl
  · have hdeclared := (companionsReserved h).declared e.1 (List.mem_map_of_mem he)
    rw [← hname] at hdeclared
    exact absurd (IndexMap.mem_keys_of_mem (IndexMap.mem_entries_of_get? hget)) hdeclared

/-- A companion depends on its own container. -/
theorem expand_companion (h : expandExternalHealthChecks threePlaces config = .ok config')
    {c : String} (hc : c ∈ config.checkedNames) : ∃ container,
      config'.containers.get? (externalHealthCheckContainerName c) = some container ∧
        container.dependencies = some [c] := by
  have hreserved := companionsReserved h
  obtain ⟨hkeys, hentries, -⟩ := addCompanions threePlaces config.checked config
  obtain ⟨e, he, rfl⟩ := List.mem_map.mp hc
  have hmem : externalHealthCheckContainerName e.1 ∈
      (config.checked.foldl (Config.addCompanion threePlaces) config).containers.keys :=
    (hkeys _).mpr (Or.inr (List.mem_map_of_mem he))
  obtain ⟨generated, hgenerated⟩ := Option.isSome_iff_exists.mp (IndexMap.get?_isSome_iff.mpr hmem)
  rcases hentries _ generated (IndexMap.mem_entries_of_get? hgenerated) with
      hsame | ⟨e', he', hname, rfl⟩
  · exact absurd (IndexMap.mem_keys_of_mem hsame) (hreserved.declared e.1 hc)
  · have hchecked := externalHealthCheckContainerName_injective hname
    refine ⟨_, by rw [expand_eq h, awaitAll_containers, hgenerated]; rfl, ?_⟩
    have hnodup : config.checkedNames.Nodup :=
      config.containers.nodup.sublist config.checkedNames_sublist
    have hkey : ∀ c ∈ config.checkedNames, ∀ c' ∈ config.checkedNames,
        c ≠ externalHealthCheckContainerName c' :=
      fun c hc c' hc' heq => hreserved.declared c' hc' (heq ▸ config.checkedNames_sublist.subset hc)
    have hfresh : ∀ c ∈ config.checkedNames, externalHealthCheckContainerName c ∉ [e'.1] := by
      intro c hc' hmem
      rw [List.mem_singleton] at hmem
      exact hkey e'.1 (List.mem_map_of_mem he') c hc' hmem.symm
    dsimp only [companionOf]
    rw [awaitAll_some hnodup hfresh hkey]
    have hnone :
        gainedCompanions (Unawaited (externalHealthCheckContainerName e.1))
          config.checkedNames [e'.1] = [] := by
      rw [List.eq_nil_iff_forall_not_mem]
      intro d hd
      obtain ⟨c, hc', hskip, hmem, -⟩ := mem_gainedCompanions.mp hd
      rw [List.mem_singleton] at hmem
      exact hskip (Or.inr (by rw [hmem, hchecked]))
    rw [hnone, hchecked]
    rfl

theorem expand_task (h : expandExternalHealthChecks threePlaces config = .ok config')
    {name : String} {task : Config.Task} (hget : config.tasks.get? name = some task) :
    config'.tasks.get? name = some { task with
      dependencies := awaitAll (fun _ => False) config.checkedNames task.dependencies } := by
  obtain ⟨-, -, htasks⟩ := addCompanions threePlaces config.checked config
  rw [expand_eq h, awaitAll_tasks, htasks, hget]
  rfl

theorem expand_keys (h : expandExternalHealthChecks threePlaces config = .ok config')
    (name : String) :
    name ∈ config'.containers.keys ↔ name ∈ config.containers.keys ∨
      ∃ c ∈ config.checkedNames, name = externalHealthCheckContainerName c := by
  rw [(expandExternalHealthChecks_ok h).keys, mem_companions]
  unfold Config.checkedNames
  simp only [List.mem_map, exists_exists_and_eq_and]

/-! ### The edges -/

/-- What a list of dependencies becomes: what it held, and once the companion of each awaited
container in it. -/
structure Awaits (config : Config) (awaited : String → Prop)
    (before after : Option (List String)) : Prop where
  kept : ∃ added, after = before.map (· ++ added) ∧ ∀ d ∈ added, ∃ c ∈ config.checkedNames,
    awaited c ∧ c ∈ before.getD [] ∧ d = externalHealthCheckContainerName c
  once : ∀ c ∈ config.checkedNames, awaited c → c ∈ before.getD [] →
    (after.getD []).count (externalHealthCheckContainerName c) = 1

theorem CompanionsReserved.not_companion (h : CompanionsReserved config) {c c' : String}
    (hc : c ∈ config.checkedNames) (hc' : c' ∈ config.checkedNames) :
    c ≠ externalHealthCheckContainerName c' :=
  fun heq => h.declared c' hc' (heq ▸ config.checkedNames_sublist.subset hc)

theorem CompanionsReserved.awaitAll (h : CompanionsReserved config) (skip : String → Prop)
    [DecidablePred skip] {before : Option (List String)}
    (hfresh : ∀ c ∈ config.checkedNames, externalHealthCheckContainerName c ∉ before.getD []) :
    Ratect.awaitAll skip config.checkedNames before =
      before.map (· ++ gainedCompanions skip config.checkedNames (before.getD [])) := by
  cases before with
  | none => exact awaitAll_none skip _
  | some dependencies =>
      exact awaitAll_some (config.containers.nodup.sublist config.checkedNames_sublist) hfresh
        fun _ hc _ hc' => h.not_companion hc hc'

theorem CompanionsReserved.awaits (h : CompanionsReserved config) (skip awaited : String → Prop)
    [DecidablePred skip] (hskip : ∀ c ∈ config.checkedNames, ¬ skip c ↔ awaited c)
    {before : Option (List String)}
    (hfresh : ∀ c ∈ config.checkedNames, externalHealthCheckContainerName c ∉ before.getD []) :
    Awaits config awaited before (Ratect.awaitAll skip config.checkedNames before) := by
  rw [h.awaitAll skip hfresh]
  constructor
  · refine ⟨_, rfl, ?_⟩
    intro d hd
    obtain ⟨c, hc, hnot, hmem, hname⟩ := mem_gainedCompanions.mp hd
    exact ⟨c, hc, (hskip c hc).mp hnot, hmem, hname⟩
  · intro c hc hawaited hmem
    cases before with
    | none => cases hmem
    | some dependencies =>
        have hgained : externalHealthCheckContainerName c ∈
            gainedCompanions skip config.checkedNames dependencies :=
          mem_gainedCompanions.mpr ⟨c, hc, (hskip c hc).mpr hawaited, hmem, rfl⟩
        have hnodup := config.containers.nodup.sublist config.checkedNames_sublist
        have hnone : dependencies.count (externalHealthCheckContainerName c) = 0 :=
          List.count_eq_zero.mpr (hfresh c hc)
        show (dependencies ++ gainedCompanions skip config.checkedNames dependencies).count _ = 1
        rw [List.count_append, hnone,
          List.count_eq_one_of_mem (gainedCompanions_nodup hnodup) hgained]

theorem dependsOn_of_get? {config : Config} {name : String} {container : Config.Container}
    (hget : config.containers.get? name = some container) {d : String} :
    config.DependsOn name d ↔ d ∈ container.dependencies.getD [] := by
  unfold Config.DependsOn dependenciesOfName
  rw [hget]
  rfl

theorem CompanionsReserved.fresh (h : CompanionsReserved config) {name : String}
    {container : Config.Container} (hget : config.containers.get? name = some container) :
    ∀ c ∈ config.checkedNames,
      externalHealthCheckContainerName c ∉ container.dependencies.getD [] :=
  fun c hc hmem => h.containers c hc name ((dependsOn_of_get? hget).mpr hmem)

/-- A declared container skips no checked container but itself. -/
theorem CompanionsReserved.unawaited_iff (h : CompanionsReserved config) {name c : String}
    (hname : name ∈ config.containers.keys) (hc : c ∈ config.checkedNames) :
    ¬ Unawaited name c ↔ c ≠ name := by
  constructor
  · exact fun hnot heq => hnot (Or.inl heq.symm)
  · rintro hne (heq | heq)
    · exact hne heq.symm
    · exact h.declared c hc (heq ▸ hname)

/-- The dependencies of a name after the expansion. -/
theorem dependsOn_expand (h : expandExternalHealthChecks threePlaces config = .ok config')
    (a b : String) :
    config'.DependsOn a b ↔
      WithCompanions config.DependsOn (fun a c => a ≠ c ∧ config.DependsOn a c)
      (· ∈ config.checkedNames) externalHealthCheckContainerName a b := by
  have hreserved := companionsReserved h
  have hdeclared : ∀ a d, config.DependsOn a d → a ∈ config.containers.keys := by
    intro a d hd
    apply IndexMap.get?_isSome_iff.mp
    unfold Config.DependsOn dependenciesOfName at hd
    cases hget : config.containers.get? a with
    | none =>
        rw [hget] at hd
        cases hd
    | some container => rfl
  cases hget : config.containers.get? a with
  | some container =>
      have hmem := IndexMap.mem_keys_of_mem (IndexMap.mem_entries_of_get? hget)
      rw [dependsOn_of_get? (expand_container h hget)]
      dsimp only
      rw [hreserved.awaitAll _ (hreserved.fresh hget)]
      have hafter : b ∈ (container.dependencies.map
          (· ++ gainedCompanions (Unawaited a) config.checkedNames
          (container.dependencies.getD []))).getD [] ↔ b ∈ container.dependencies.getD [] ∨
            ∃ c ∈ config.checkedNames, ¬ Unawaited a c ∧ c ∈ container.dependencies.getD [] ∧
              b = externalHealthCheckContainerName c := by
        rw [← mem_gainedCompanions]
        cases container.dependencies with
        | none => simp [gainedCompanions]
        | some dependencies => exact List.mem_append
      rw [hafter]
      constructor
      · rintro (hb | ⟨c, hc, hnot, hmem', rfl⟩)
        · exact .kept ((dependsOn_of_get? hget).mpr hb)
        · exact .waits hc ⟨fun heq => hnot (Or.inl heq), (dependsOn_of_get? hget).mpr hmem'⟩
      · intro hedge
        cases hedge with
        | kept hb => exact Or.inl ((dependsOn_of_get? hget).mp hb)
        | @waits _ c hc hwaits =>
            exact Or.inr ⟨c, hc, (hreserved.unawaited_iff hmem hc).mpr hwaits.1.symm,
              (dependsOn_of_get? hget).mp hwaits.2, rfl⟩
        | own hc => exact absurd hmem (hreserved.declared _ hc)
  | none =>
      have hnot : a ∉ config.containers.keys := by
        rw [← IndexMap.get?_isSome_iff, hget]
        simp
      by_cases hcompanion : ∃ c ∈ config.checkedNames, a = externalHealthCheckContainerName c
      · obtain ⟨c, hc, rfl⟩ := hcompanion
        obtain ⟨container, hget', hdependencies⟩ := expand_companion h hc
        rw [dependsOn_of_get? hget', hdependencies]
        constructor
        · intro hb
          rw [List.mem_singleton.mp hb]
          exact .own hc
        · intro hedge
          generalize hstart : externalHealthCheckContainerName c = a at hedge hnot
          cases hedge with
          | kept hb => exact absurd (hdeclared _ _ hb) hnot
          | waits _ hwaits => exact absurd (hdeclared _ _ hwaits.2) hnot
          | own hc' =>
              rw [externalHealthCheckContainerName_injective hstart]
              exact List.mem_singleton_self _
      · have hnone : config'.containers.get? a = none := by
          rw [← Option.not_isSome_iff_eq_none, IndexMap.get?_isSome_iff, expand_keys h]
          exact fun hmem => hmem.elim hnot hcompanion
        constructor
        · intro hb
          unfold Config.DependsOn dependenciesOfName at hb
          rw [hnone] at hb
          cases hb
        · intro hedge
          cases hedge with
          | kept hb => exact absurd (hdeclared _ _ hb) hnot
          | waits _ hwaits => exact absurd (hdeclared _ _ hwaits.2) hnot
          | own hc => exact absurd ⟨_, hc, rfl⟩ hcompanion

theorem freshCompanions_dependsOn (h : CompanionsReserved config) :
    FreshCompanions config.DependsOn (fun a c => a ≠ c ∧ config.DependsOn a c)
      (· ∈ config.checkedNames)
      externalHealthCheckContainerName where
  of_waits := fun _ _ hwaits => hwaits.2
  no_edge_from := by
    intro c x hc hx
    unfold Config.DependsOn dependenciesOfName at hx
    have hnone : config.containers.get? (externalHealthCheckContainerName c) = none := by
      rw [← Option.not_isSome_iff_eq_none, IndexMap.get?_isSome_iff]
      exact h.declared c hc
    rw [hnone] at hx
    cases hx
  no_edge_to := fun c x hc => h.containers c hc x
  injective := fun _ _ => externalHealthCheckContainerName_injective
  apart := fun _ _ hc hc' heq => h.not_companion hc' hc heq.symm

/-- Who leads to a companion in the graph of a task: what depends on its container, or the task
itself. -/
def TaskWaits (config : Config) (root : String) (taskDependencies : Option (List String))
    (a c : String) : Prop :=
  (a ≠ c ∧ config.DependsOn a c) ∨ (a = root ∧ c ∈ taskDependencies.getD [])

/-- The edges of a task after the expansion. -/
theorem taskEdge_expand (h : expandExternalHealthChecks threePlaces config = .ok config')
    {name root : String} {task : Config.Task} (htask : config.tasks.get? name = some task)
    (a b : String) :
    TaskEdge config'.containers root
      (awaitAll (fun _ => False) config.checkedNames task.dependencies) a b ↔
      WithCompanions (TaskEdge config.containers root task.dependencies)
        (TaskWaits config root task.dependencies) (· ∈ config.checkedNames)
          externalHealthCheckContainerName a b := by
  have hreserved := companionsReserved h
  have hown : b ∈ (awaitAll (fun _ => False) config.checkedNames task.dependencies).getD [] ↔
      b ∈ task.dependencies.getD [] ∨ ∃ c ∈ config.checkedNames, c ∈ task.dependencies.getD [] ∧
        b = externalHealthCheckContainerName c := by
    rw [hreserved.awaitAll _ fun c hc => hreserved.tasks c hc name task htask]
    cases task.dependencies with
    | none => simp
    | some dependencies =>
        simp only [Option.map_some, Option.getD_some, List.mem_append,
          mem_gainedCompanions, not_false_eq_true, true_and]
  have hdepends := dependsOn_expand h a b
  unfold Config.DependsOn at hdepends
  unfold TaskEdge
  rw [hdepends, hown]
  constructor
  · rintro (hedge | ⟨rfl, hb | ⟨c, hc, hmem, rfl⟩⟩)
    · cases hedge with
      | kept hb => exact .kept (Or.inl hb)
      | waits hc hwaits => exact .waits hc (Or.inl hwaits)
      | own hc => exact .own hc
    · exact .kept (Or.inr ⟨rfl, hb⟩)
    · exact .waits hc (Or.inr ⟨rfl, hmem⟩)
  · intro hedge
    cases hedge with
    | kept hb => exact hb.imp .kept fun hroot => ⟨hroot.1, Or.inl hroot.2⟩
    | waits hc hwaits =>
        exact hwaits.imp (.waits hc) fun hroot => ⟨hroot.1, Or.inr ⟨_, hc, hroot.2, rfl⟩⟩
    | own hc => exact Or.inl (.own hc)

theorem freshCompanions_taskEdge (h : CompanionsReserved config) {name : String}
    {task : Config.Task} {run : Config.TaskRun} (htask : config.tasks.get? name = some task)
    (hrun : task.run = some run) :
    FreshCompanions (TaskEdge config.containers run.container task.dependencies)
      (TaskWaits config run.container task.dependencies) (· ∈ config.checkedNames)
      externalHealthCheckContainerName where
  of_waits := fun _ _ hwaits => hwaits.imp (·.2) id
  no_edge_from := by
    rintro c x hc (hx | ⟨hroot, -⟩)
    · exact (freshCompanions_dependsOn h).no_edge_from c x hc hx
    · exact h.runs c hc name task run htask hrun hroot.symm
  no_edge_to := by
    rintro c x hc (hx | ⟨-, hx⟩)
    · exact h.containers c hc x hx
    · exact h.tasks c hc name task htask hx
  injective := fun _ _ => externalHealthCheckContainerName_injective
  apart := fun _ _ hc hc' heq => h.not_companion hc' hc heq.symm

/-- The containers of a task after the expansion: those it had, and the companions that one of them,
or the task itself, waits for. -/
theorem containerNamesInTask_expand
    (h : expandExternalHealthChecks threePlaces config = .ok config') {name : String}
    {task : Config.Task} {run : Config.TaskRun} (htask : config.tasks.get? name = some task)
    (hrun : task.run = some run) (n : String) :
    n ∈ containerNamesInTask config'.containers run.container
        (awaitAll (fun _ => False) config.checkedNames task.dependencies) ↔
      n ∈ containerNamesInTask config.containers run.container task.dependencies ∨
        ∃ c ∈ config.checkedNames, n = externalHealthCheckContainerName c ∧
          ∃ m ∈ containerNamesInTask config.containers run.container task.dependencies,
            TaskWaits config run.container task.dependencies m c := by
  have hreserved := companionsReserved h
  have hroot : ∀ c, c ∈ config.checkedNames → run.container ≠ externalHealthCheckContainerName c :=
    fun c hc => hreserved.runs c hc name task run htask hrun
  have hedges : TaskEdge config'.containers run.container
        (awaitAll (fun _ => False) config.checkedNames task.dependencies) =
      WithCompanions (TaskEdge config.containers run.container task.dependencies)
        (TaskWaits config run.container task.dependencies) (· ∈ config.checkedNames)
        externalHealthCheckContainerName := by
    funext a b
    exact propext (taskEdge_expand h htask a b)
  simp only [mem_containerNamesInTask]
  unfold InTask
  rw [hedges, (freshCompanions_taskEdge hreserved htask hrun).reaches_iff hroot]

end expansion

/-- A config with its external health checks expanded: every list of dependencies keeps what it held
and gains, once, the companion of every checked container in it but its own; a companion depends on
its container alone; a circle is neither closed nor opened; and each task has the containers it had,
and of the companions those that a container of its own or the task itself waited for. -/
theorem expansion_preserves_graph (threePlaces : ℕ → String) (config config' : Config)
    (h : expandExternalHealthChecks threePlaces config = .ok config') :
    (∀ name container, config.containers.get? name = some container → ∃ dependencies,
        config'.containers.get? name = some { container with dependencies := dependencies } ∧
          Awaits config (fun c => c ≠ name) container.dependencies dependencies) ∧
      (∀ name task, config.tasks.get? name = some task → ∃ dependencies,
        config'.tasks.get? name = some { task with dependencies := dependencies } ∧
          Awaits config (fun _ => True) task.dependencies dependencies) ∧
      (∀ c ∈ config.checkedNames, ∃ container,
        config'.containers.get? (externalHealthCheckContainerName c) = some container ∧
          container.dependencies = some [c]) ∧
      ((∀ n, ¬ Relation.TransGen config'.DependsOn n n) ↔
        ∀ n, ¬ Relation.TransGen config.DependsOn n n) ∧
      ∀ name task run, config.tasks.get? name = some task → task.run = some run → ∃ task',
        config'.tasks.get? name = some task' ∧ task'.run = some run ∧
          (∀ n, (∀ c ∈ config.checkedNames, n ≠ externalHealthCheckContainerName c) →
            (n ∈ containerNamesInTask config'.containers run.container task'.dependencies ↔
              n ∈ containerNamesInTask config.containers run.container task.dependencies)) ∧
          ∀ c ∈ config.checkedNames,
            externalHealthCheckContainerName c ∈
                containerNamesInTask config'.containers run.container task'.dependencies ↔
              (∃ m ∈ containerNamesInTask config.containers run.container task.dependencies,
                m ≠ c ∧ config.DependsOn m c) ∨ c ∈ task.dependencies.getD [] := by
  have hreserved := companionsReserved h
  refine ⟨?_, ?_, fun c hc => expand_companion h hc, ?_, ?_⟩
  · intro name container hget
    have hname := IndexMap.mem_keys_of_mem (IndexMap.mem_entries_of_get? hget)
    exact ⟨_, expand_container h hget,
      hreserved.awaits _ _ (fun c hc => hreserved.unawaited_iff hname hc)
      (hreserved.fresh hget)⟩
  · intro name task hget
    exact ⟨_, expand_task h hget, hreserved.awaits _ _ (fun _ _ => by simp)
      fun c hc => hreserved.tasks c hc name task hget⟩
  · have hedges : config'.DependsOn =
      WithCompanions config.DependsOn (fun a c => a ≠ c ∧ config.DependsOn a c)
        (· ∈ config.checkedNames) externalHealthCheckContainerName := by
      funext a b
      exact propext (dependsOn_expand h a b)
    rw [hedges]
    exact (freshCompanions_dependsOn hreserved).acyclic_iff
  · intro name task run htask hrun
    refine ⟨_, expand_task h htask, hrun, ?_, ?_⟩
    · intro n hn
      rw [containerNamesInTask_expand h htask hrun]
      constructor
      · rintro (hmem | ⟨c, hc, hname, -⟩)
        · exact hmem
        · exact absurd hname (hn c hc)
      · exact Or.inl
    · intro c hc
      rw [containerNamesInTask_expand h htask hrun]
      obtain ⟨hroot, -, -⟩ :=
        containerNamesInTask_closed config.containers run.container task.dependencies
      constructor
      · rintro (hmem | ⟨c', hc', hname, m, hm, hwaits⟩)
        · -- nothing led to the companion before it was there
          exfalso
          rw [mem_containerNamesInTask] at hmem
          unfold InTask at hmem
          rcases Relation.ReflTransGen.cases_tail hmem with heq | ⟨m, -, hedge⟩
          · exact hreserved.runs c hc name task run htask hrun heq.symm
          · exact (freshCompanions_taskEdge hreserved htask hrun).no_edge_to c m hc hedge
        · obtain rfl := externalHealthCheckContainerName_injective hname
          rcases hwaits with hwaits | ⟨-, hmem⟩
          · exact Or.inl ⟨m, hm, hwaits⟩
          · exact Or.inr hmem
      · rintro (⟨m, hm, hwaits⟩ | hmem)
        · exact Or.inr ⟨c, hc, rfl, m, hm, Or.inl hwaits⟩
        · exact Or.inr ⟨c, hc, rfl, run.container, hroot, Or.inr ⟨rfl, hmem⟩⟩

/-- An application and the database that it waits for, which is checked from outside. -/
def checkedDatabase : Config where
  projectName := "project"
  containers := ⟨[("app", { dependencies := some ["db"] }),
    ("db", { externalHealthCheck := some ⟨.tcp 5432, none, none, none⟩ })], by simp⟩
  tasks := .single "run" { run := some { container := "app" } }
  configVariables := none
  forbidTelemetry := none

theorem expansion_preserves_graph_database : ∃ config',
    expandExternalHealthChecks toString checkedDatabase = .ok config' ∧ "ratect-health-check-db" ∈
      containerNamesInTask config'.containers "app"
        (config'.tasks.get? "run" |>.bind (·.dependencies)) := by
  have hok : (expandExternalHealthChecks toString checkedDatabase).passes (fun _ => true) =
      true := by decide +kernel
  obtain ⟨config', h, -⟩ := Except.exists_of_passes hok
  refine ⟨config', h, ?_⟩
  obtain ⟨-, -, -, -, htasks⟩ := expansion_preserves_graph toString checkedDatabase config' h
  obtain ⟨task', htask', -, -, hcompanions⟩ := htasks "run" { run := some { container := "app" } }
    { container := "app" } rfl rfl
  rw [htask']
  refine (hcompanions "db" (by decide +kernel)).mpr
    (Or.inl ⟨"app", by decide +kernel, by decide, ?_⟩)
  show "db" ∈ dependenciesOfName checkedDatabase.containers "app"
  decide +kernel

end Ratect
