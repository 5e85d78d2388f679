import Ratect.ConvertedLoad
import Ratect.Matching

/-! # The configuration of a converted project

What a native load merges from the converted files, against what the load of their sources merged:
the same names, each container as its file's conversion left it (`LoadedConfig.ported`) and each
task as it was, under the same base paths and boundaries (`Ported`).  A file's tables are written in
the order of their keys, so only the order of the entries is another. -/

namespace Ratect

open Paths (Path)

variable {machine machine' : Machine} {unicode : Char → Bool} {root : LoadedFile}
    {loaded loaded' : LoadedConfig} {native : LoadedFile → LoadedFile}

/-! ### Containers -/

section container

variable (unicode)

/-- The identity that a converted container has: an enabled `run_as_current_user` has become one. -/
def Config.Container.portedIdentity (container : Config.Container) : Option Config.Identity :=
  match container.runAsCurrentUser with
  | some ⟨true, some home⟩ => some ⟨Expressions.literalAsExpression unicode home, []⟩
  | _ => container.identity

/-- A container of an owned file, as it is read back. -/
def Config.Container.ported (container : Config.Container) : Config.Container :=
  { container with
    image := container.image.map Expressions.literalKept
    volumes := container.volumes.map (List.map fun volume => (volume.converted unicode).asObject)
    runAsCurrentUser := none
    identity := container.portedIdentity unicode }

/-- A container as the converted project has it: a bundle's is as it was. -/
def LoadedConfig.ported (loaded : LoadedConfig) (name : String)
    (container : Config.Container) : Config.Container :=
  if (loaded.containerBoundaries.get? name).isNone then container.ported unicode else container

end container

theorem convertedContainer_ok {name : String} {container container' : Config.Container}
    (h : convertedContainer unicode name container = .ok container') :
    container'.readBack = container.ported unicode := by
  have hvolumes : ∀ volumes : Option (List Config.VolumeMount),
      (volumes.map (List.map (Config.VolumeMount.converted unicode))).map
        (List.map Config.VolumeMount.asObject) =
        volumes.map (List.map fun volume => (volume.converted unicode).asObject) := by
    intro volumes
    rw [Option.map_map]
    congr 1
    funext l
    exact List.map_map
  unfold convertedContainer at h
  unfold Config.Container.readBack Config.Container.ported Config.Container.portedIdentity
  cases huser : container.runAsCurrentUser with
  | none =>
      rw [huser] at h
      cases h
      simp only [hvolumes]
      rfl
  | some user =>
      rw [huser] at h
      obtain ⟨enabled, home⟩ := user
      cases enabled with
      | false =>
          cases h
          simp only [hvolumes]
          rfl
      | true =>
          obtain ⟨⟨⟩, -, h⟩ := Except.bind_eq_ok.mp h
          cases home with
          | none => cases h
          | some home =>
              cases h
              simp only [hvolumes]
              rfl

/-! ### Tasks -/

/-- The same task, its customisations in any order. -/
structure Config.Task.Reordered (task task' : Config.Task) : Prop where
  run : task'.run = task.run
  prerequisites : task'.prerequisites = task.prerequisites
  dependencies : task'.dependencies = task.dependencies
  customise : Option.Rel (fun m m' => m'.entries.Perm m.entries) task.customise task'.customise

theorem Config.Task.Reordered.refl (task : Config.Task) : task.Reordered task where
  run := rfl
  prerequisites := rfl
  dependencies := rfl
  customise := by
    cases task.customise with
    | none => exact .none
    | some m => exact .some (List.Perm.refl _)

theorem Config.Task.reordered_readBack (task : Config.Task) : task.Reordered task.readBack where
  run := rfl
  prerequisites := rfl
  dependencies := rfl
  customise := by
    unfold Config.Task.readBack
    cases task.customise with
    | none => exact .none
    | some m => exact .some (IndexMap.entries_sorted m)

/-! ### The files' declarations -/

theorem Rewritten.containerEntries (h : Rewritten machine machine' unicode loaded root native)
    (hmerge : MergeOf loaded loaded.files) {f : LoadedFile} (hf : f ∈ loaded.files) :
    Matched (fun e e' => e' = (e.1, loaded.ported unicode e.1 e.2)) f.file.containerEntries
      (native f).file.containerEntries := by
  have hboundary : ∀ e ∈ f.file.containerEntries,
      loaded.containerBoundaries.get? e.1 = f.boundary :=
    fun e he => (hmerge.origins f hf e.1 (List.mem_map_of_mem he)).2.2
  unfold LoadedConfig.ported
  cases hside : f.boundary with
  | some b =>
      rw [h.bundle f hf (by rw [hside]; rfl)]
      refine Matched.of_forall₂ (List.forall₂_same.mpr ?_)
      intro e he
      rw [hboundary e he, hside]
      rfl
  | none =>
      obtain ⟨containers, hconverted, hcontainers⟩ :=
        (h.owned f (mem_owned.mpr ⟨hf, hside⟩)).containers
      have hpairs : List.Forall₂ (fun e e' => e' = (e.1, e.2.ported unicode))
          f.file.containerEntries
          (containers.mapEntries fun _ container => container.readBack).entries := by
        refine List.forall₂_map_right_iff.mpr ((IndexMap.mapEntriesM_ok hconverted).imp ?_)
        rintro ⟨name, container⟩ ⟨name', container'⟩ ⟨rfl, hcontainer⟩
        exact congrArg (Prod.mk name') (convertedContainer_ok hcontainer)
      have hmatch := (Matched.of_forall₂ hpairs).perm (IndexMap.entries_sorted _)
      rw [← hcontainers] at hmatch
      refine hmatch.mono ?_
      rintro e he _ rfl
      rw [hboundary e he, hside]
      rfl

theorem Rewritten.taskEntries (h : Rewritten machine machine' unicode loaded root native)
    {f : LoadedFile} (hf : f ∈ loaded.files) :
    Matched (fun e e' => e'.1 = e.1 ∧ e.2.Reordered e'.2) f.file.taskEntries
      (native f).file.taskEntries := by
  cases hside : f.boundary with
  | some b =>
      rw [h.bundle f hf (by rw [hside]; rfl)]
      exact Matched.of_forall₂ (List.forall₂_same.mpr fun e _ => ⟨rfl, .refl _⟩)
  | none =>
      unfold ConfigFile.taskEntries
      rw [(h.owned f (mem_owned.mpr ⟨hf, hside⟩)).tasks]
      refine (Matched.of_forall₂ ?_).perm (IndexMap.entries_sorted _)
      exact List.forall₂_map_right_iff.mpr
        (List.forall₂_same.mpr fun e _ => ⟨rfl, e.2.reordered_readBack⟩)

theorem Rewritten.variableEntries (h : Rewritten machine machine' unicode loaded root native)
    {f : LoadedFile} (hf : f ∈ loaded.files) :
    (native f).file.variableEntries.Perm f.file.variableEntries := by
  cases hside : f.boundary with
  | some b => rw [h.bundle f hf (by rw [hside]; rfl)]
  | none =>
      unfold ConfigFile.variableEntries
      rw [(h.owned f (mem_owned.mpr ⟨hf, hside⟩)).configVariables]
      cases f.file.configVariables with
      | none => exact List.Perm.refl _
      | some declared => exact IndexMap.entries_sorted declared

/-! ### The merged configuration -/

/-- What a native load merges of the files that stand in place of a project's. -/
structure Ported (unicode : Char → Bool) (loaded loaded' : LoadedConfig) : Prop where
  source : loaded.format = .compat
  format : loaded'.format = .native
  containers : Matched (fun e e' => e' = (e.1, loaded.ported unicode e.1 e.2))
    loaded.config.containers.entries
    loaded'.config.containers.entries
  tasks : Matched (fun e e' => e'.1 = e.1 ∧ e.2.Reordered e'.2) loaded.config.tasks.entries
    loaded'.config.tasks.entries
  configVariables : ((loaded'.config.configVariables.map IndexMap.entries).getD []).Perm
    ((loaded.config.configVariables.map IndexMap.entries).getD [])
  basePaths : ∀ name ∈ loaded.config.containers.keys,
    loaded'.containerBasePaths.get? name = loaded.containerBasePaths.get? name
  boundaries : ∀ name ∈ loaded.config.containers.keys,
    loaded'.containerBoundaries.get? name = loaded.containerBoundaries.get? name
  batectShaped : ∀ name ∈ loaded.config.containers.keys,
    loaded'.format.isBatectShaped (loaded'.containerOrigins.get? name) =
      (loaded.containerBoundaries.get? name).isSome

theorem ported_of_rewritten (h : Rewritten machine machine' unicode loaded root native)
    (hcarries : loaded.CarriesOver) (hmerge : MergeOf loaded loaded.files)
    (hmerge' : MergeOf loaded' loaded'.files) (hfiles : loaded'.files = loaded.files.map native)
    (hsource : loaded.format = .compat) (hformat : loaded'.format = .native) :
    Ported unicode loaded loaded' := by
  -- Where a container is declared, on both sides.
  have hdeclared : ∀ name ∈ loaded.config.containers.keys, ∃ f ∈ loaded.files,
      name ∈ f.file.containers.keys ∧
      native f ∈ loaded'.files ∧ name ∈ (native f).file.containers.keys := by
    intro name hname
    obtain ⟨container, hc⟩ := IndexMap.mem_keys_iff.mp hname
    rw [hmerge.containers, List.mem_flatMap] at hc
    obtain ⟨f, hf, hc⟩ := hc
    obtain ⟨e', he', rfl⟩ := (h.containerEntries hmerge hf).mem_left hc
    exact ⟨f, hf, IndexMap.mem_keys_of_mem hc, hfiles ▸ List.mem_map_of_mem hf,
      IndexMap.mem_keys_of_mem he'⟩
  refine ⟨hsource, hformat, ?_, ?_, ?_, ?_, ?_, ?_⟩
  · rw [hmerge.containers, hmerge'.containers, hfiles, List.flatMap_map]
    exact Matched.flatMap fun f hf => h.containerEntries hmerge hf
  · rw [hmerge.tasks, hmerge'.tasks, hfiles, List.flatMap_map]
    exact Matched.flatMap fun f hf => h.taskEntries hf
  · rw [hmerge.configVariables, hmerge'.configVariables, hfiles, List.flatMap_map]
    exact List.Perm.flatMap_left _ fun f hf => h.variableEntries hf
  · intro name hname
    obtain ⟨f, hf, hin, hf', hin'⟩ := hdeclared name hname
    rw [(hmerge.origins f hf name hin).2.1, (hmerge'.origins _ hf' name hin').2.1]
    cases hside : f.boundary with
    | none => rw [containingDir_beside h (mem_owned.mpr ⟨hf, hside⟩)]
    | some b => rw [h.bundle f hf (by rw [hside]; rfl)]
  · intro name hname
    obtain ⟨f, hf, hin, hf', hin'⟩ := hdeclared name hname
    rw [(hmerge.origins f hf name hin).2.2, (hmerge'.origins _ hf' name hin').2.2, h.boundary hf]
  · intro name hname
    obtain ⟨f, hf, hin, hf', hin'⟩ := hdeclared name hname
    rw [(hmerge'.origins _ hf' name hin').1, (hmerge.origins f hf name hin).2.2, hformat]
    show (configFileFormat (native f).path == some .yaml) = f.boundary.isSome
    cases hside : f.boundary with
    | none =>
        rw [(h.owned f (mem_owned.mpr ⟨hf, hside⟩)).format]
        rfl
    | some b =>
        have hbundle : f.boundary.isSome = true := by
          rw [hside]
          rfl
        rw [h.bundle f hf hbundle, hcarries.bundlesYaml f hf hbundle]
        rfl

end Ratect
