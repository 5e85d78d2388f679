import Ratect.PathConfinement

/-! # Bind mounts

What the engine makes of a container's `volumes` (`resolve_volumes` of `engine.rs`,
`resolve_cache_mount` of `cache.rs`), the `source:container[:options]` string that is sent for each
mount (`to_bind_string` of `container_spec.rs`), and how Docker reads such a string: it splits at
every `:` and cleans the source.

The string is not escaped, so Docker reads another source exactly if the source has one `:`, the
container path has none and there are no options (`reads_own_source_iff`).  Otherwise it mounts the
directory that was checked, and a bundle without trust in host paths reaches nothing outside its
checkout and the project, except the user's directory of a shared cache where caches are directories
(`docker_mounts_what_was_checked`). -/

namespace Ratect

open Paths (Path)

/-! ### Mounts -/

/-- `BindSource`. -/
inductive BindSource where
  | host (path : Text)
  | volume (name : Text)
deriving DecidableEq, Repr

/-- The text that stands for the source. -/
def BindSource.text : BindSource → Text
  | host path => path
  | volume name => name

/-- `BindMount`. -/
structure BindMount where
  source : BindSource
  container : Text
  options : Option Text
deriving DecidableEq, Repr

/-- `to_bind_string`. -/
def BindMount.toBindString (bind : BindMount) : Text :=
  match bind.options with
  | some options => bind.source.text ++ ':' :: (bind.container ++ ':' :: options)
  | none => bind.source.text ++ ':' :: bind.container

/-! ### Caches -/

/-- `CacheType`. -/
inductive CacheType where
  | volume
  | directory
deriving DecidableEq, Repr

/-- `CacheOptions`, with what resolving a cache asks of the machine: the project's cache key, and
that a directory is there. -/
structure CacheOptions where
  cacheType : CacheType
  projectDirectory : Path
  projectCacheKey : Except String Text
  createDirAll : Path → Except String Unit

/-- `cache_directory`. -/
def cacheDirectory (projectDirectory : Path) : Path :=
  Paths.join (Paths.join projectDirectory (Paths.ofText ".batect".toList))
    (Paths.ofText "caches".toList)

/-- `cache_volume_name`. -/
def cacheVolumeName (projectCacheKey name : Text) : Text :=
  "batect-cache-".toList ++ projectCacheKey ++ '-' :: name

/-- `shared_cache_volume_name`. -/
def sharedCacheVolumeName (name : Text) : Text := "ratect-shared-cache-".toList ++ name

/-- `shared_cache_root`. -/
def sharedCacheRoot (home : Path) : Path :=
  Paths.join (Paths.join home (Paths.ofText ".ratect".toList)) (Paths.ofText "caches".toList)

/-- The directory of a cache. -/
def directoryOfCache (machine : Machine) (options : CacheOptions)
    (mount : Config.CacheVolumeMount) : Except String Path :=
  match mount.scope.getD .project with
  | .shared => do
      let home ← machine.homeDirectory
      return Paths.join (sharedCacheRoot home) (Paths.ofText mount.name.toList)
  | .project =>
      .ok (Paths.join (cacheDirectory options.projectDirectory) (Paths.ofText mount.name.toList))

/-- What a cache mount mounts. -/
def cacheSource (machine : Machine) (options : CacheOptions) (mount : Config.CacheVolumeMount) :
    Except String BindSource :=
  match options.cacheType, mount.scope.getD .project with
  | .volume, .shared => .ok (.volume (sharedCacheVolumeName mount.name.toList))
  | .volume, .project => do
      let key ← options.projectCacheKey
      return .volume (cacheVolumeName key mount.name.toList)
  | .directory, _ => do
      let dir ← directoryOfCache machine options mount
      options.createDirAll dir
      return .host (Paths.toText dir)

/-- `resolve_cache_mount`. -/
def resolveCacheMount (machine : Machine) (options : CacheOptions)
    (mount : Config.CacheVolumeMount) :
    Except String BindMount := do
  let source ← cacheSource machine options mount
  return ⟨source, mount.container, mount.options⟩

/-! ### The mounts of a container -/

/-- One entry of `volumes`; a `tmpfs` is no bind. -/
def resolveVolume (machine : Machine) (options : CacheOptions) :
    Config.VolumeMount → Except String (Option BindMount)
  | .host mount => .ok (some ⟨.host mount.host, mount.container, mount.options⟩)
  | .cache mount => (resolveCacheMount machine options mount).map some
  | .tmpfs _ => .ok none

/-- The loop of `resolve_volumes`: a bind that is there already is dropped. -/
def resolveVolumesFrom (machine : Machine) (options : CacheOptions) :
    List BindMount → List Config.VolumeMount → Except String (List BindMount)
  | resolved, [] => .ok resolved
  | resolved, volume :: volumes => do
      match ← resolveVolume machine options volume with
      | none => resolveVolumesFrom machine options resolved volumes
      | some bind =>
          resolveVolumesFrom machine options
            (if bind ∈ resolved then resolved else resolved ++ [bind]) volumes

/-- `resolve_volumes`. -/
def resolveVolumes (machine : Machine) (options : CacheOptions)
    (volumes : Option (List Config.VolumeMount)) : Except String (Option (List BindMount)) :=
  match volumes with
  | none => .ok none
  | some volumes => do
      let resolved ← resolveVolumesFrom machine options [] volumes
      return if resolved = [] then none else some resolved

theorem resolveVolumesFrom_mem {machine : Machine} {options : CacheOptions}
    {volumes : List Config.VolumeMount} {resolved binds : List BindMount}
    (h : resolveVolumesFrom machine options resolved volumes = .ok binds) {bind : BindMount}
    (hbind : bind ∈ binds) :
    bind ∈ resolved ∨
      ∃ volume ∈ volumes, resolveVolume machine options volume = .ok (some bind) := by
  induction volumes generalizing resolved with
  | nil =>
      cases h
      exact Or.inl hbind
  | cons volume volumes ih =>
      unfold resolveVolumesFrom at h
      obtain ⟨made, hmade, h⟩ := Except.bind_eq_ok.mp h
      cases made with
      | none =>
          rcases ih h with hin | ⟨v, hv, hfrom⟩
          · exact Or.inl hin
          · exact Or.inr ⟨v, List.mem_cons_of_mem _ hv, hfrom⟩
      | some made =>
          rcases ih h with hin | ⟨v, hv, hfrom⟩
          · split at hin
            · exact Or.inl hin
            · rcases List.mem_append.mp hin with hin | hin
              · exact Or.inl hin
              · rw [List.mem_singleton.mp hin]
                exact Or.inr ⟨volume, List.mem_cons_self, hmade⟩
          · exact Or.inr ⟨v, List.mem_cons_of_mem _ hv, hfrom⟩

/-- Every bind is made from one of the volumes. -/
theorem resolveVolumes_mem {machine : Machine} {options : CacheOptions}
    {volumes : Option (List Config.VolumeMount)} {binds : List BindMount}
    (h : resolveVolumes machine options volumes = .ok (some binds)) {bind : BindMount}
    (hbind : bind ∈ binds) :
    ∃ volume ∈ volumes.getD [], resolveVolume machine options volume = .ok (some bind) := by
  cases volumes with
  | none => cases h
  | some volumes =>
      obtain ⟨resolved, hresolved, h⟩ := Except.bind_eq_ok.mp h
      have hsome : (if resolved = [] then none else some resolved) = some binds := Except.ok.inj h
      split at hsome
      · cases hsome
      · cases hsome
        rcases resolveVolumesFrom_mem hresolved hbind with hin | hfrom
        · cases hin
        · exact hfrom

/-! ### How Docker reads a bind -/

/-- The parts of a bind string. -/
structure BindRead where
  source : Text
  destination : Text
  mode : Option Text
deriving DecidableEq, Repr

/-- The string split at every `:`; any other number of parts is refused. -/
def readBind (bind : Text) : Option BindRead :=
  match bind.splitOn ':' with
  | [source, destination] => some ⟨source, destination, none⟩
  | [source, destination, mode] => some ⟨source, destination, some mode⟩
  | _ => none

/-- The directory that is mounted. -/
def BindRead.directory (read : BindRead) : Path := Paths.clean (Paths.ofText read.source)

namespace BindMount

/-- Whenever Docker accepts the string, it reads the source of the mount. -/
def ReadsOwnSource (bind : BindMount) : Prop :=
  ∀ read, readBind bind.toBindString = some read → read.source = bind.source.text

/-- The source has one `:`, the container path none, and there are no options. -/
def Misread (bind : BindMount) : Prop :=
  bind.options = none ∧ bind.source.text.count ':' = 1 ∧ ':' ∉ bind.container

instance (bind : BindMount) : Decidable bind.Misread := inferInstanceAs (Decidable (_ ∧ _ ∧ _))

end BindMount

theorem length_splitOn (t : Text) : (t.splitOn ':').length = t.count ':' + 1 := by
  induction t with
  | nil => rfl
  | cons c t ih =>
      rw [List.splitOn_cons_eq_if_modifyHead, List.count_cons]
      split
      · rw [List.length_cons, ih]
      · rw [List.length_modifyHead, ih]

/-- A text up to its first `:` is its first part. -/
theorem splitOn_first {s : Text} (hs : ':' ∉ s) (t : Text) :
    (s ++ ':' :: t).splitOn ':' = s :: t.splitOn ':' := by
  rw [List.splitOn_append_cons_self, List.splitOn_eq_singleton hs]
  rfl

/-- A string that is accepted has one or two `:`, and its source is its first part. -/
theorem readBind_some {t : Text} {read : BindRead} (h : readBind t = some read) :
    (t.splitOn ':').head? = some read.source ∧ t.count ':' ≤ 2 := by
  have hlength := length_splitOn t
  unfold readBind at h
  split at h
  · next heq =>
      cases h
      rw [heq] at hlength ⊢
      exact ⟨rfl, by simp at hlength; omega⟩
  · next heq =>
      cases h
      rw [heq] at hlength ⊢
      exact ⟨rfl, by simp at hlength; omega⟩
  · cases h

namespace BindMount

theorem count_toBindString (bind : BindMount) :
    bind.toBindString.count ':' = bind.source.text.count ':' + 1 + bind.container.count ':' +
      match bind.options with
      | some options => 1 + options.count ':'
      | none => 0 := by
  unfold toBindString
  cases bind.options with
  | none =>
      simp only [List.count_append, List.count_cons_self]
      omega
  | some options =>
      simp only [List.count_append, List.count_cons_self]
      omega

/-- The string begins with the source and a `:`. -/
theorem toBindString_eq (bind : BindMount) :
    ∃ rest, bind.toBindString = bind.source.text ++ ':' :: rest := by
  unfold toBindString
  cases bind.options with
  | none => exact ⟨_, rfl⟩
  | some options => exact ⟨_, rfl⟩

/-- A source without `:` is read as it is. -/
theorem readsOwnSource_of_not_mem {bind : BindMount} (h : ':' ∉ bind.source.text) :
    bind.ReadsOwnSource := by
  intro read hread
  obtain ⟨rest, hrest⟩ := bind.toBindString_eq
  have hhead := (readBind_some hread).1
  rw [hrest, splitOn_first h] at hhead
  exact (Option.some.inj hhead).symm

/-- A source with one `:` is cut there. -/
theorem not_readsOwnSource {bind : BindMount} (h : bind.Misread) : ¬ bind.ReadsOwnSource := by
  obtain ⟨hoptions, hsource, hcontainer⟩ := h
  have hmem : ':' ∈ bind.source.text := List.count_pos_iff.mp (by omega)
  obtain ⟨a, b, hab, ha⟩ := List.eq_append_cons_of_mem hmem
  have hb : ':' ∉ b := by
    intro hb
    have := List.count_pos_iff.mpr hb
    rw [hab, List.count_append, List.count_cons_self] at hsource
    omega
  have hstring : bind.toBindString.splitOn ':' = [a, b, bind.container] := by
    unfold toBindString
    rw [hoptions, hab, List.append_assoc, List.cons_append, splitOn_first ha, splitOn_first hb,
      List.splitOn_eq_singleton hcontainer]
  intro hreads
  have hread : readBind bind.toBindString = some ⟨a, b, some bind.container⟩ := by
    unfold readBind
    rw [hstring]
  have hsame : a = bind.source.text := hreads _ hread
  have hlength := congrArg List.length (hsame.trans hab)
  simp at hlength

/-- The string has two or three parts. -/
def Readable (bind : BindMount) : Prop :=
  bind.source.text.count ':' + bind.container.count ':' +
    bind.options.elim 0 (fun options => 1 + options.count ':') ≤ 1

instance (bind : BindMount) : Decidable bind.Readable := inferInstanceAs (Decidable (_ ≤ _))

theorem readable_iff (bind : BindMount) :
    bind.Readable ↔ ∃ read, readBind bind.toBindString = some read := by
  have hcount : bind.toBindString.count ':' = 1 + (bind.source.text.count ':' +
      bind.container.count ':' + bind.options.elim 0 (fun options => 1 + options.count ':')) := by
    rw [count_toBindString]
    cases bind.options with
    | none => dsimp only [Option.elim]; omega
    | some options => dsimp only [Option.elim]; omega
  constructor
  · intro hreadable
    have hlength := length_splitOn bind.toBindString
    unfold Readable at hreadable
    unfold readBind
    match hparts : bind.toBindString.splitOn ':', hlength with
    | [source, destination], _ => exact ⟨_, rfl⟩
    | [source, destination, mode], _ => exact ⟨_, rfl⟩
    | [], hlength => simp at hlength
    | [_], hlength => simp at hlength; omega
    | _ :: _ :: _ :: _ :: _, hlength => simp at hlength; omega
  · rintro ⟨read, hread⟩
    have htwo := (readBind_some hread).2
    unfold Readable
    omega

/-- Docker reads the mount's own source, whenever it accepts the string, unless that is misread. -/
theorem reads_own_source_iff (bind : BindMount) : bind.ReadsOwnSource ↔ ¬ bind.Misread := by
  constructor
  · exact fun hreads hmisread => not_readsOwnSource hmisread hreads
  · intro hmisread read hread
    by_cases hmem : ':' ∈ bind.source.text
    · -- Every further `:` is one part too many.
      have hsource := List.count_pos_iff.mpr hmem
      have htwo := (readBind_some hread).2
      rw [count_toBindString] at htwo
      cases hoptions : bind.options with
      | some options =>
          simp only [hoptions] at htwo
          omega
      | none =>
          simp only [hoptions] at htwo
          have hcontainer : ':' ∉ bind.container := by
            intro hin
            have := List.count_pos_iff.mpr hin
            omega
          exact absurd ⟨hoptions, by omega, hcontainer⟩ hmisread
    · exact readsOwnSource_of_not_mem hmem read hread

end BindMount

/-! ### Paths from the root -/

/-- The paths that a machine names are absolute, and lists of components that a text can have. -/
structure Machine.Grounded (machine : Machine) : Prop where
  currentDir : ∀ dir, machine.currentDir = .ok dir → Paths.isAbsolute dir = true ∧ Paths.Proper dir
  homeDirectory : ∀ dir, machine.homeDirectory = .ok dir →
    Paths.isAbsolute dir = true ∧ Paths.Proper dir
  ensureCached : ∀ repo gitRef dir, machine.ensureCached repo gitRef = .ok dir →
    Paths.isAbsolute dir = true ∧ Paths.Proper dir

section grounded

variable {machine : Machine} {format : ConfigFormat} {path : Path}

theorem expandHomeDirectory_proper (hmachine : machine.Grounded) {text : Text} {home : Path}
    (h : expandHomeDirectory machine text = .ok (some home)) :
    Paths.isAbsolute home = true ∧ Paths.Proper home := by
  have hproper := Paths.proper_ofText text
  unfold expandHomeDirectory at h
  split at h
  · next first rest heq =>
      rw [heq] at hproper
      split at h
      · split at h
        · cases h
        · next dir hdir =>
            cases h
            obtain ⟨habsolute, hdir⟩ := hmachine.homeDirectory dir hdir
            exact ⟨Paths.isAbsolute_join habsolute, hdir.join fun hin =>
              hproper (List.mem_of_mem_tail hin)⟩
      · cases h
  · cases h

theorem absolutePath_rooted (hmachine : machine.Grounded) (hpath : Paths.Proper path) {q : Path}
    (h : absolutePath machine path = .ok q) : Paths.Rooted q := by
  unfold absolutePath at h
  split at h
  · cases h
  · next dir hdir =>
      cases h
      obtain ⟨habsolute, hdir⟩ := hmachine.currentDir dir hdir
      exact (hdir.join hpath).clean_rooted (Paths.isAbsolute_join habsolute)

theorem proper_containingDir {file : Path} (h : Paths.Proper file) :
    Paths.Proper (containingDir file) := by
  unfold containingDir Paths.parent
  split
  · exact List.not_mem_nil
  · exact List.not_mem_nil
  · exact h.dropLast

theorem entryTarget_rooted (hmachine : machine.Grounded) {declaring q : Path}
    (hdeclaring : Paths.Rooted declaring) {entry : IncludeEntry}
    (h : entryTarget machine format declaring entry = some q) : Paths.Rooted q := by
  unfold entryTarget at h
  split at h
  · next text =>
      split at h
      · cases h
      · next target htarget =>
          refine absolutePath_rooted hmachine ?_ (fileAt_some h)
          obtain ⟨expanded, hexpanded, htarget⟩ := Except.bind_eq_ok.mp htarget
          cases htarget
          cases expanded with
          | none => exact (proper_containingDir hdeclaring.proper).join (Paths.proper_ofText text)
          | some home => exact (expandHomeDirectory_proper hmachine hexpanded).2
  · split at h
    · cases h
    · next dir hdir =>
        obtain ⟨candidate, -, hcandidate⟩ := List.exists_of_findSome?_eq_some h
        refine absolutePath_rooted hmachine ?_ (fileAt_some hcandidate)
        exact (hmachine.ensureCached _ _ dir hdir).2.join (Paths.proper_ofText candidate)

/-- Every loaded file is named from the root. -/
theorem LoadedPart.rooted_paths (hmachine : machine.Grounded) {root : LoadedFile}
    {files : List LoadedFile} (h : LoadedPart machine format root files)
    (hroot : absolutePath machine path = .ok root.path) (hpath : Paths.Proper path) :
    ∀ f ∈ files, Paths.Rooted f.path := by
  refine h.induction (absolutePath_rooted hmachine hpath hroot) ?_
  intro d _ f _ entry _ hfollowed _ hd
  exact entryTarget_rooted hmachine hd hfollowed.target

/-- A host path resolves to a path from the root. -/
theorem resolveHostPath_rooted (hmachine : machine.Grounded) {text : Text} {anchor : Anchor}
    (hbase : Paths.Proper anchor.basePath) (h : resolveHostPath machine text anchor = .ok path) :
    Paths.Rooted path := by
  unfold resolveHostPath at h
  split at h
  · cases h
  · split at h
    · cases h
    · next home hhome =>
        cases h
        obtain ⟨habsolute, hproper⟩ := expandHomeDirectory_proper hmachine hhome
        exact hproper.clean_rooted habsolute
    · split at h
      · next habsolute =>
          cases h
          exact (Paths.proper_ofText text).clean_rooted habsolute
      · split at h
        · cases h
        · next dir hdir =>
            cases h
            obtain ⟨habsolute, hproper⟩ := hmachine.currentDir dir hdir
            exact (hproper.join (hbase.join (Paths.proper_ofText text))).clean_rooted
              (Paths.isAbsolute_join habsolute)

theorem loadProjectImpl_directory (hmachine : machine.Grounded) {unicode : Char → Bool}
    {threePlaces : ℕ → String} {loaded : LoadedConfig} {project : LoadedProject}
    (hpath : Paths.Proper path)
    (h : loadProjectImpl machine unicode threePlaces path loaded = .ok project) :
    Paths.Rooted project.projectDirectory := by
  unfold loadProjectImpl at h
  obtain ⟨⟨⟩, -, h⟩ := Except.bind_eq_ok.mp h
  obtain ⟨⟨⟩, -, h⟩ := Except.bind_eq_ok.mp h
  obtain ⟨projectDirectory, hdirectory, h⟩ := Except.bind_eq_ok.mp h
  obtain ⟨⟨⟩, -, h⟩ := Except.bind_eq_ok.mp h
  obtain ⟨⟨containers, suppliers⟩, -, h⟩ := Except.bind_eq_ok.mp h
  obtain ⟨⟨⟩, -, h⟩ := Except.bind_eq_ok.mp h
  obtain ⟨config, -, h⟩ := Except.bind_eq_ok.mp h
  cases h
  obtain ⟨dir, hdir, h⟩ := Except.bind_eq_ok.mp hdirectory
  cases h
  obtain ⟨habsolute, hproper⟩ := hmachine.currentDir dir hdir
  have hbase : Paths.Proper (basePathFor path) := by
    unfold basePathFor Paths.parent
    split
    · exact List.not_mem_nil
    · exact List.not_mem_nil
    · exact hpath.dropLast
  exact (hproper.join hbase).clean_rooted (Paths.isAbsolute_join habsolute)

end grounded

/-! ### Cache names -/

theorem isName_of_validateCacheName {name : String} (h : validateCacheName name = .ok ()) :
    Paths.IsName name.toList := by
  obtain ⟨hhead, hall⟩ := Except.ensure_eq_ok.mp h
  rw [List.all_eq_true] at hall
  refine ⟨?_, ?_, ?_, ?_⟩
  · intro hnil
    rw [hnil] at hhead
    cases hhead
  · intro hdot
    rw [hdot] at hhead
    cases hhead
  · intro hdots
    rw [hdots] at hhead
    cases hhead
  · intro hslash
    cases hall _ hslash

/-- The names of the directories that hold the caches. -/
def batectDirectory : Paths.Name := ⟨".batect".toList, by decide⟩

/-- The directory of the caches in it. -/
def cachesDirectory : Paths.Name := ⟨"caches".toList, by decide⟩

/-- A project's cache directory is in the project. -/
theorem join_cacheDirectory {projectDirectory : Path} (h : Paths.Rooted projectDirectory)
    (n : Paths.Name) :
    Paths.join (cacheDirectory projectDirectory) (Paths.ofText n.text) =
      projectDirectory ++ [.normal batectDirectory] ++
        [.normal cachesDirectory] ++ [.normal n] := by
  unfold cacheDirectory
  rw [show ".batect".toList = batectDirectory.text from rfl,
    show "caches".toList = cachesDirectory.text from rfl, Paths.ofText_name, Paths.ofText_name,
      Paths.ofText_name, h.join, (h.append _).join,
    ((h.append _).append _).join]

/-- The cache mounts that a container ends up with were declared, so their names were validated. -/
theorem Accepted.cache_validated {machine : Machine} {unicode : Char → Bool}
    {threePlaces : ℕ → String} {loaded : LoadedConfig} {inherited : Config}
    {project : LoadedProject} (h : Accepted machine unicode threePlaces loaded inherited project)
    {machine' : Machine} {containers tasks : List String} {overrides : IndexMap String Text}
    {hostEnv : Text → Option Text} {evaluated : Evaluated}
    (heval : project.evaluate machine' unicode containers tasks overrides hostEnv = .ok evaluated)
    {name : String} {container : Config.Container} (hc : (name, container) ∈ evaluated.containers)
    {mount : Config.CacheVolumeMount} (hmount : .cache mount ∈ container.volumes.getD []) :
    validateCacheName mount.name = .ok () := by
  obtain ⟨configVars, hcontainers⟩ := evaluate_container heval
  obtain ⟨declared, hdeclared, rfl, hnone⟩ := hcontainers name container hc
  obtain ⟨written, hwritten, heq, -⟩ := evaluateContainer_volume hnone hmount
  have hcache : written = .cache mount := by
    cases written with
    | host _ => cases heq
    | cache _ => exact heq.symm
    | tmpfs _ => cases heq
  rw [hcache] at hwritten
  obtain ⟨container', hcontainer', -, hsame⟩ := h.expansion.containers name declared hdeclared
  rcases hcontainer' with hcontainer' | ⟨_, _, -, -, hcompanion⟩
  · obtain ⟨supplier, hsupplier, hvolumes⟩ :=
      (h.inherits name container' hcontainer').supplied.volumes
    have hin : .cache mount ∈ supplier.volumes.getD [] := by
      rw [← hvolumes]
      rw [hsame] at hwritten
      exact hwritten
    obtain ⟨⟨⟩, hchecked, -⟩ := Except.bind_eq_ok.mp h.values
    have hcheck := Except.withContext_eq_ok.mp
      (Except.forM_eq_ok.mp hchecked _ (IndexMap.mem_entries_of_get? hsupplier))
    obtain ⟨⟨⟩, hvolume, -⟩ := Except.bind_eq_ok.mp hcheck
    exact Except.forM_eq_ok.mp hvolume _ hin
  · rw [hsame, hcompanion] at hwritten
    cases hwritten

/-! ### What Docker mounts -/

/-- Docker mounts a directory of the checkout or of the project. -/
def BindMount.StaysInside (boundary : Boundary) (projectDirectory : Path)
    (bind : BindMount) : Prop :=
  ∀ path, bind.source = .host path → ∀ read, readBind bind.toBindString = some read →
    boundary.repoDir <+: read.directory ∨ projectDirectory <+: read.directory

/-- The text of the user's directory of a shared cache. -/
def sharedCacheText (home : Path) (name : String) : Text :=
  Paths.toText (Paths.join (sharedCacheRoot home) (Paths.ofText name.toList))

/-- Caches are directories, and the mount is one of a shared cache among the volumes that Docker
reads, whose directory lies neither in the checkout nor in the project. -/
def BindMount.LeavesBySharedCache (machine : Machine) (options : CacheOptions) (boundary : Boundary)
    (volumes : List Config.VolumeMount) (bind : BindMount) : Prop :=
  options.cacheType = .directory ∧ bind.Readable ∧ ∃ mount home, .cache mount ∈ volumes ∧
    mount.scope = some .shared ∧ machine.homeDirectory = .ok home ∧
    bind.source = .host (sharedCacheText home mount.name) ∧
    ¬ boundary.repoDir <+: Paths.clean (Paths.ofText (sharedCacheText home mount.name)) ∧
    ¬ options.projectDirectory <+: Paths.clean (Paths.ofText (sharedCacheText home mount.name))

/-- The volumes of the container come from a Git-included file inside the boundary that is not
trusted with host paths. -/
def LoadedConfig.DistrustsVolumes (loaded : LoadedConfig) (name : String) (boundary : Boundary) :
    Prop :=
  boundary.bundle.trust.hostPaths = false ∧ ∃ file ∈ loaded.files, file.boundary = some boundary ∧
    ∃ supplier ∈ file.file.containers.keys,
      Supplies loaded.config.containers (·.volumes) name supplier

section mounts

variable {machine : Machine} {boundary : Boundary} {projectDirectory : Path}

theorem directory_of_rooted {path : Path} (h : Paths.Rooted path) {read : BindRead}
    (hread : read.source = Paths.toText path) : read.directory = path := by
  unfold BindRead.directory
  rw [hread, Paths.ofText_toText h, h.clean]

/-- A local mount. -/
theorem staysInside_local (hmachine : machine.Grounded) {anchor : Anchor}
    (hbase : Paths.Proper anchor.basePath)
    (hanchor : anchor.boundary = some (boundary, projectDirectory))
    (htrust : boundary.bundle.trust.hostPaths = false) {mount : Config.LocalVolumeMount}
    (hanchored : Anchored machine anchor mount.host) {bind : BindMount}
    (hreads : bind.ReadsOwnSource) (hbind : bind.source = .host mount.host) :
    bind.StaysInside boundary projectDirectory := by
  intro _ _ read hread
  have hsource := hreads read hread
  rw [hbind] at hsource
  obtain ⟨text, field, path, hpath, hvalue⟩ := hanchored
  obtain ⟨hresolved, hallowed⟩ := anchorPath_ok hpath
  have hinside := checkPathAllowed_inside htrust (hallowed _ _ hanchor)
  rw [resolveHostPath_clean hresolved, Boundary.inside, Bool.or_eq_true, Paths.startsWith_iff,
    Paths.startsWith_iff] at hinside
  rw [directory_of_rooted (resolveHostPath_rooted hmachine hbase hresolved) (hsource.trans hvalue)]
  exact hinside

/-- A cache mount. -/
theorem staysInside_cache {options : CacheOptions}
    (hproject : Paths.Rooted options.projectDirectory) {volumes : List Config.VolumeMount}
    {mount : Config.CacheVolumeMount} (hmount : .cache mount ∈ volumes)
    (hname : Paths.IsName mount.name.toList) {bind : BindMount} (hreads : bind.ReadsOwnSource)
    (hbind : resolveCacheMount machine options mount = .ok bind)
    (hkept : ¬ bind.LeavesBySharedCache machine options boundary volumes) :
    bind.StaysInside boundary options.projectDirectory := by
  intro path hpath read hread
  have hsource := hreads read hread
  obtain ⟨source, hresolved, hbind⟩ := Except.bind_eq_ok.mp hbind
  cases hbind
  simp only at hpath hsource
  subst hpath
  unfold cacheSource directoryOfCache at hresolved
  cases hscope : mount.scope.getD .project with
  | project =>
      cases htype : options.cacheType with
      | volume =>
          simp only [hscope, htype] at hresolved
          obtain ⟨key, -, hresolved⟩ := Except.bind_eq_ok.mp hresolved
          cases hresolved
      | directory =>
          simp only [hscope, htype] at hresolved
          obtain ⟨dir, hdir, hresolved⟩ := Except.bind_eq_ok.mp hresolved
          obtain ⟨_, -, hresolved⟩ := Except.bind_eq_ok.mp hresolved
          cases hresolved
          cases hdir
          have hdirectory := join_cacheDirectory hproject ⟨mount.name.toList, hname⟩
          rw [hdirectory] at hsource
          rw [directory_of_rooted (((hproject.append _).append _).append _) hsource,
            List.append_assoc, List.append_assoc]
          exact Or.inr (List.prefix_append _ _)
  | shared =>
      cases htype : options.cacheType with
      | volume =>
          simp only [hscope, htype] at hresolved
          cases hresolved
      | directory =>
          simp only [hscope, htype] at hresolved
          obtain ⟨dir, hdir, hresolved⟩ := Except.bind_eq_ok.mp hresolved
          obtain ⟨_, -, hresolved⟩ := Except.bind_eq_ok.mp hresolved
          cases hresolved
          obtain ⟨home, hhome, hdir⟩ := Except.bind_eq_ok.mp hdir
          cases hdir
          have hdirectory : read.directory =
              Paths.clean (Paths.ofText (sharedCacheText home mount.name)) := by
            unfold BindRead.directory
            rw [hsource]
            rfl
          have hshared : mount.scope = some .shared := by
            cases hs : mount.scope with
            | none => rw [hs] at hscope; cases hscope
            | some scope => rw [hs] at hscope; exact congrArg some hscope
          rw [hdirectory]
          by_contra hout
          rw [not_or] at hout
          exact hkept ⟨htype, (BindMount.readable_iff _).mpr ⟨read, hread⟩, mount, home, hmount,
            hshared, hhome, rfl, hout.1, hout.2⟩

/-- A mount that leaves so is one that Docker makes. -/
theorem BindMount.LeavesBySharedCache.not_staysInside {options : CacheOptions}
    {volumes : List Config.VolumeMount} {bind : BindMount}
    (h : bind.LeavesBySharedCache machine options boundary volumes) (hreads : bind.ReadsOwnSource) :
    ¬ bind.StaysInside boundary options.projectDirectory := by
  obtain ⟨_, hreadable, mount, home, _, _, _, hsource, hrepo, hproject⟩ := h
  obtain ⟨read, hread⟩ := bind.readable_iff.mp hreadable
  intro hinside
  have hplaces := hinside _ hsource read hread
  have hdirectory : read.directory =
      Paths.clean (Paths.ofText (sharedCacheText home mount.name)) := by
    unfold BindRead.directory
    rw [hreads read hread, hsource]
    rfl
  rw [hdirectory] at hplaces
  exact hplaces.elim hrepo hproject

end mounts

/-- **Docker mounts what was checked.**  In every project that loads, whatever it is evaluated with:
of each bind that is made from a container's volumes, Docker reads the bind's own source whenever it
accepts the string, and mounts nothing outside the checkout and the project if a Git-included file
that is not trusted with host paths supplied the volumes — exactly if the bind is not one with a `:`
in its source, none in its container path and no options, and leaves both places by no shared
cache. -/
theorem docker_mounts_what_was_checked {machine machine' : Machine} {unicode : Char → Bool}
    {threePlaces : ℕ → String} {format : ConfigFormat} {running : Option String} {configFile : Path}
    {loaded : LoadedConfig} {project : LoadedProject}
    (hload : LoadsProject machine unicode threePlaces format running configFile loaded project)
    (hmachine : machine.Grounded) (hmachine' : machine'.Grounded)
    (hconfigFile : Paths.Proper configFile) {containers tasks : List String}
    {overrides : IndexMap String Text} {hostEnv : Text → Option Text} {evaluated : Evaluated}
    (heval : project.evaluate machine' unicode containers tasks overrides hostEnv = .ok evaluated)
    {name : String} {container : Config.Container} (hc : (name, container) ∈ evaluated.containers)
    {options : CacheOptions} (hoptions : options.projectDirectory = project.projectDirectory)
    {binds : List BindMount}
    (hbinds : resolveVolumes machine' options container.volumes = .ok (some binds))
    {bind : BindMount} (hbind : bind ∈ binds) :
    (bind.ReadsOwnSource ∧ ∀ boundary, loaded.DistrustsVolumes name boundary →
      bind.StaysInside boundary project.projectDirectory) ↔
    ¬ bind.Misread ∧ ∀ boundary, loaded.DistrustsVolumes name boundary →
      ¬ bind.LeavesBySharedCache machine' options boundary (container.volumes.getD []) := by
  rw [← bind.reads_own_source_iff, ← hoptions]
  refine and_congr_right fun hreads => forall₂_congr fun boundary hdistrusts => ?_
  refine ⟨fun hinside hleaves => hleaves.not_staysInside hreads hinside, fun hkept => ?_⟩
  obtain ⟨htrust, file, hfile, hboundary, supplier, hsupplier, hsupplies⟩ := hdistrusts
  obtain ⟨rounds, hread⟩ := hload.read
  obtain ⟨inherited, haccepted⟩ := loadProjectImpl_ok hload.accepted
  obtain ⟨volume, hvolume, hmade⟩ := resolveVolumes_mem hbinds hbind
  cases volume with
  | tmpfs mount => cases hmade
  | cache mount =>
      have hresolved : resolveCacheMount machine' options mount = .ok bind := by
        simp only [resolveVolume] at hmade
        cases hmount : resolveCacheMount machine' options mount with
        | error e =>
            rw [hmount] at hmade
            cases hmade
        | ok made =>
            rw [hmount] at hmade
            cases hmade
            rfl
      refine staysInside_cache ?_ hvolume
        (isName_of_validateCacheName (haccepted.cache_validated heval hc hvolume))
          hreads hresolved hkept
      rw [hoptions]
      exact loadProjectImpl_directory hmachine hconfigFile hload.accepted
  | host mount =>
      cases hmade
      rw [hoptions]
      obtain ⟨configVars, hcontainers⟩ := evaluate_container heval
      obtain ⟨declared, hdeclared, heq, hnone⟩ := hcontainers name container hc
      rw [heq] at hvolume
      obtain ⟨written, -, hwritten, herrors⟩ := evaluateContainer_volume hnone hvolume
      have hanchored := evaluateVolume_anchored herrors hwritten.symm
      have hnoted : (project.provenance.suppliersOf name).volumes = supplier := by
        rcases haccepted.inherits_or_generated heval hc with ⟨container', hinherits⟩ | ⟨hv, -, -, -⟩
        · exact hinherits.noted (·.volumes) (fun _ => rfl) (fun _ _ _ => rfl) hsupplies
        · rw [← heq, hv] at hvolume
          cases hvolume
      rw [hnoted] at hanchored
      obtain ⟨-, hbase, hbound⟩ := (loadFromFile_merge hread).origins file hfile supplier hsupplier
      refine staysInside_local hmachine' ?_ ?_ htrust hanchored hreads rfl
      · obtain ⟨root, hroot, hnone, hloaded⟩ := loadFromFile_ok hread
        have hpaths :=
          (loadFrom_tree hnone hloaded).toLoadedPart.rooted_paths hmachine (readRoot_ok hroot).2.1
          hconfigFile
        unfold Provenance.anchor
        rw [haccepted.basePaths, hbase]
        exact proper_containingDir (hpaths file hfile).proper
      · apply anchor_boundary
        rw [haccepted.boundaries, hbound, hboundary]

/-- A machine in memory names absolute paths if its directories are such. -/
theorem grounded_inMemory {dir home : Path} {files : List (Path × ConfigFile)} {clones : Clones}
    (hdir : Paths.Rooted dir) (hhome : Paths.Rooted home)
    (hclones : ∀ e ∈ clones, Paths.Rooted e.2) :
    (Machine.inMemory dir home files clones).Grounded where
  currentDir := by
    rintro _ ⟨⟩
    exact ⟨hdir.isAbsolute, hdir.proper⟩
  homeDirectory := by
    rintro _ ⟨⟩
    exact ⟨hhome.isAbsolute, hhome.proper⟩
  ensureCached := by
    intro repo gitRef q h
    simp only [Machine.inMemory] at h
    split at h
    · cases h
    · next e he =>
        cases h
        have hq := hclones e (List.mem_of_find?_eq_some he)
        exact ⟨hq.isAbsolute, hq.proper⟩

theorem rooted_ofText_clean {t : Text} (habsolute : Paths.isAbsolute (Paths.ofText t) = true)
    (hclean : Paths.clean (Paths.ofText t) = Paths.ofText t) : Paths.Rooted (Paths.ofText t) := by
  rw [← hclean]
  exact (Paths.proper_ofText t).clean_rooted habsolute

/-- The caches of a project. -/
def cacheOptionsOf (cacheType : CacheType) (projectDirectory : Path) : CacheOptions :=
  { cacheType := cacheType
    projectDirectory := projectDirectory
    projectCacheKey := .ok "abc123".toList
    createDirAll := fun _ => .ok () }

/-- A project whose container inherits a local mount and a shared cache from a bundle. -/
def cachingProject : Machine :=
  Machine.inMemory (Paths.ofText "/p".toList) (Paths.ofText "/h".toList)
    [ (Paths.ofText "/p/ratect.toml".toList,
        { projectName := some "p"
          containers := .single "app" { extendsName := some "base" }
          includes := [.git ⟨"a"⟩ "1" none false none none] }),
      (Paths.ofText "/c/a/ratect-bundle.toml".toList,
        { containers := .single "base"
            { image := some "alpine".toList
              volumes := some [.host ⟨"data".toList, "/data".toList, none, false⟩,
                .cache ⟨"c", "/cache".toList, none, some .shared⟩] } }) ]
    [((⟨"a"⟩, "1"), Paths.ofText "/c/a".toList)]

theorem grounded_cachingProject : cachingProject.Grounded := by
  refine grounded_inMemory (rooted_ofText_clean (by decide +kernel) (by decide +kernel))
    (rooted_ofText_clean (by decide +kernel) (by decide +kernel)) ?_
  intro e he
  rw [List.mem_singleton] at he
  rw [he]
  exact rooted_ofText_clean (by decide +kernel) (by decide +kernel)

/-- The binds of an evaluated container, if they pass a test. -/
def bindsPass (machine : Machine) (options : CacheOptions) (test : List BindMount → Bool)
    (container : Config.Container) : Bool :=
  (resolveVolumes machine options container.volumes).passes fun binds => binds.any test

theorem exists_of_bindsPass {machine : Machine} {options : CacheOptions}
    {test : List BindMount → Bool} {container : Config.Container}
    (h : bindsPass machine options test container = true) :
    ∃ binds, resolveVolumes machine options container.volumes = .ok (some binds) ∧
      test binds = true := by
  obtain ⟨binds, hbinds, h⟩ := Except.exists_of_passes h
  obtain ⟨binds, rfl, h⟩ := Option.any_eq_true _ _ |>.mp h
  exact ⟨binds, hbinds, h⟩

def checkoutMount : BindMount := ⟨.host "/c/a/data".toList, "/data".toList, none⟩

def sharedMount : BindMount := ⟨.host "/h/.ratect/caches/c".toList, "/cache".toList, none⟩

/-- With caches in directories, the local mount stays inside and the shared cache does not. -/
theorem docker_mounts_what_was_checked_inherited : ∃ loaded project evaluated container boundary,
    LoadsProject cachingProject (fun _ => false) (fun _ => "") .native none
        (Paths.ofText "/p/ratect.toml".toList) loaded project ∧
      project.evaluate cachingProject (fun _ => false) ["app"] [] .empty
        (fun _ => some "x".toList) =
        .ok evaluated ∧
      ("app", container) ∈ evaluated.containers ∧
      resolveVolumes cachingProject
        (cacheOptionsOf .directory project.projectDirectory) container.volumes =
        .ok (some [checkoutMount, sharedMount]) ∧
      loaded.DistrustsVolumes "app" boundary ∧
      checkoutMount.StaysInside boundary project.projectDirectory ∧ sharedMount.ReadsOwnSource ∧
      ¬ sharedMount.StaysInside boundary project.projectDirectory := by
  have hrun : Loop.succeeds (fun loaded => suppliedByBundle loaded &&
      (loadProjectImpl cachingProject (fun _ => false) (fun _ => "")
        (Paths.ofText "/p/ratect.toml".toList)
          loaded).passes fun project =>
            decide (project.projectDirectory = Paths.ofText "/p".toList) &&
        (project.evaluate cachingProject (fun _ => false) ["app"] [] .empty
            (fun _ => some "x".toList)).passes fun evaluated =>
          evaluated.containers.any fun e => decide (e.1 = "app") &&
            (decide (e.2.volumes = some [.host ⟨"/c/a/data".toList, "/data".toList, none, false⟩,
                .cache ⟨"c", "/cache".toList, none, some .shared⟩]) &&
              bindsPass cachingProject (cacheOptionsOf .directory project.projectDirectory)
                (fun binds => decide (binds = [checkoutMount, sharedMount])) e.2))
      (loadFromFile cachingProject .native none 10 (Paths.ofText "/p/ratect.toml".toList)) =
        true := by
    decide +kernel
  obtain ⟨loaded, hloaded, htest⟩ := Loop.exists_of_succeeds hrun
  rw [Bool.and_eq_true] at htest
  obtain ⟨hsupplies, file, hfile, hkey, boundary, hboundary, hrepo, htrust⟩ :=
    supplies_of_suppliedByBundle htest.1
  obtain ⟨project, hproject, htest⟩ := Except.exists_of_passes htest.2
  rw [Bool.and_eq_true] at htest
  have hdirectory := of_decide_eq_true htest.1
  obtain ⟨evaluated, hevaluated, htest⟩ := Except.exists_of_passes htest.2
  obtain ⟨⟨name, container⟩, hc, htest⟩ := List.any_eq_true.mp htest
  simp only [Bool.and_eq_true] at htest
  obtain ⟨hname, hvolumes, hpass⟩ := htest
  obtain rfl := of_decide_eq_true hname
  have hvolumes := of_decide_eq_true hvolumes
  obtain ⟨binds, hbinds, htest⟩ := exists_of_bindsPass hpass
  obtain rfl := of_decide_eq_true htest
  have hload : LoadsProject cachingProject (fun _ => false) (fun _ => "") .native none
      (Paths.ofText "/p/ratect.toml".toList) loaded project := ⟨⟨10, hloaded⟩, hproject⟩
  have hdistrusts : loaded.DistrustsVolumes "app" boundary :=
    ⟨htrust, file, hfile, hboundary, "base", hkey, hsupplies⟩
  have hshared : sharedMount.ReadsOwnSource := sharedMount.reads_own_source_iff.mpr (by decide)
  -- the only cache mount has another source
  have hkept (other : Boundary) : ¬ checkoutMount.LeavesBySharedCache cachingProject
      (cacheOptionsOf .directory project.projectDirectory) other (container.volumes.getD []) := by
    rintro ⟨_, _, mount, home, hmount, _, hhome, hsource, _⟩
    rw [hvolumes] at hmount
    simp only [Option.getD_some, List.mem_cons, List.not_mem_nil, or_false, reduceCtorEq, false_or,
      Config.VolumeMount.cache.injEq] at hmount
    subst hmount
    obtain rfl := Except.ok.inj hhome
    exact absurd hsource (by decide +kernel)
  have hleaves : sharedMount.LeavesBySharedCache cachingProject
      (cacheOptionsOf .directory project.projectDirectory) boundary
        (container.volumes.getD []) := by
    refine ⟨rfl, by decide, ⟨"c", "/cache".toList, none, some .shared⟩, Paths.ofText "/h".toList,
      ?_, rfl, rfl, by decide +kernel, ?_, ?_⟩
    · rw [hvolumes]
      exact List.mem_cons_of_mem _ List.mem_cons_self
    · rw [hrepo]
      decide +kernel
    · show ¬ project.projectDirectory <+: _
      rw [hdirectory]
      decide +kernel
  have hmounts :=
    docker_mounts_what_was_checked hload grounded_cachingProject grounded_cachingProject
    (Paths.proper_ofText _) hevaluated hc
    (rfl : (cacheOptionsOf .directory project.projectDirectory).projectDirectory = _) hbinds
    (List.mem_cons_self : checkoutMount ∈ [checkoutMount, sharedMount])
  obtain ⟨_, hinside⟩ := hmounts.mpr ⟨by decide, fun other _ => hkept other⟩
  exact ⟨loaded, project, evaluated, container, boundary, hload, hevaluated, hc, hbinds, hdistrusts,
    hinside boundary hdistrusts, hshared, hleaves.not_staysInside hshared⟩

/-- A project in a directory with a `:` in its name, and a bundle that mounts the project
directory. -/
def colonProject : Machine :=
  Machine.inMemory (Paths.ofText "/w:/p".toList) (Paths.ofText "/h".toList)
    [ (Paths.ofText "/w:/p/ratect.toml".toList,
        { projectName := some "p"
          containers := .single "app" { extendsName := some "base" }
          includes := [.git ⟨"a"⟩ "1" none false none none] }),
      (Paths.ofText "/c/a/ratect-bundle.toml".toList,
        { containers := .single "base"
            { image := some "alpine".toList
              volumes :=
                some [.host ⟨"<{batect.project_directory}".toList, "ro".toList, none, false⟩] } }) ]
    [((⟨"a"⟩, "1"), Paths.ofText "/c/a".toList)]

/-- Docker is asked for `/w:/p:ro`, and mounts `/w`. -/
theorem bind_reaches_outside : ∃ loaded project evaluated container binds bind read boundary,
    LoadsProject colonProject (fun _ => false) (fun _ => "") .native none
        (Paths.ofText "/w:/p/ratect.toml".toList) loaded project ∧
      project.evaluate colonProject (fun _ => false) ["app"] [] .empty
        (fun _ => none) = .ok evaluated ∧
      ("app", container) ∈ evaluated.containers ∧
      resolveVolumes colonProject (cacheOptionsOf .volume project.projectDirectory)
        container.volumes = .ok (some binds) ∧
      bind ∈ binds ∧ Supplies loaded.config.containers (·.volumes) "app" "base" ∧
      (∃ file ∈ loaded.files, "base" ∈ file.file.containers.keys ∧ file.boundary = some boundary) ∧
      boundary.bundle.trust.hostPaths = false ∧ readBind bind.toBindString = some read ∧
      read.source ≠ bind.source.text ∧ ¬ boundary.repoDir <+: read.directory ∧
      ¬ project.projectDirectory <+: read.directory := by
  have hrun : Loop.succeeds (fun loaded => suppliedByBundle loaded &&
      (loadProjectImpl colonProject (fun _ => false) (fun _ => "")
        (Paths.ofText "/w:/p/ratect.toml".toList)
          loaded).passes fun project =>
        (project.evaluate colonProject (fun _ => false) ["app"] [] .empty
          (fun _ => none)).passes fun evaluated =>
          evaluated.containers.any fun e => decide (e.1 = "app") &&
            bindsPass colonProject (cacheOptionsOf .volume project.projectDirectory)
              (fun binds => binds.any fun bind => (readBind bind.toBindString).any fun read =>
                decide (read.source ≠ bind.source.text) &&
                  !(Paths.startsWith read.directory (Paths.ofText "/c/a".toList) ||
                    Paths.startsWith read.directory project.projectDirectory)) e.2)
      (loadFromFile colonProject .native none 10 (Paths.ofText "/w:/p/ratect.toml".toList)) =
        true := by
    decide +kernel
  obtain ⟨loaded, hloaded, htest⟩ := Loop.exists_of_succeeds hrun
  rw [Bool.and_eq_true] at htest
  obtain ⟨hsupplies, file, hfile, hkey, boundary, hboundary, hrepo, htrust⟩ :=
    supplies_of_suppliedByBundle htest.1
  obtain ⟨project, hproject, htest⟩ := Except.exists_of_passes htest.2
  obtain ⟨evaluated, hevaluated, htest⟩ := Except.exists_of_passes htest
  obtain ⟨⟨name, container⟩, hc, htest⟩ := List.any_eq_true.mp htest
  rw [Bool.and_eq_true] at htest
  obtain rfl := of_decide_eq_true htest.1
  obtain ⟨binds, hbinds, htest⟩ := exists_of_bindsPass htest.2
  obtain ⟨bind, hbind, htest⟩ := List.any_eq_true.mp htest
  obtain ⟨read, hread, htest⟩ := Option.any_eq_true _ _ |>.mp htest
  rw [Bool.and_eq_true, Bool.not_eq_true', Bool.or_eq_false_iff] at htest
  obtain ⟨hsource, houtside, houtside'⟩ := htest
  refine ⟨loaded, project, evaluated, container, binds, bind, read, boundary,
    ⟨⟨10, hloaded⟩, hproject⟩,
    hevaluated, hc, hbinds, hbind, hsupplies, ⟨file, hfile, hkey, hboundary⟩, htrust, hread,
    of_decide_eq_true hsource, ?_, ?_⟩
  · rw [hrepo, ← Paths.startsWith_iff, houtside]
    exact Bool.false_ne_true
  · rw [← Paths.startsWith_iff, houtside']
    exact Bool.false_ne_true

end Ratect
