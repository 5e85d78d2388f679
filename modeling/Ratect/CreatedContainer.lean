import Ratect.FileWrites
import Ratect.IdentityHome

/-! # A created container

A container that was created and not started, as Docker's archive calls see it (`docker.rs`): the
image's tree with the bind mounts and volumes in it, which the daemon makes on the first such call,
and without the `tmpfs`, which it mounts at start.  A call follows the links of a path in all
components but the last.

Where a mount is (`place`) is where the links of its destination led when the daemon put it there,
which need not be what the names in the destination's text say. -/

namespace Ratect

open Paths (Path Name Node FileTree FileSystem Kind IoError)
open ColonFile (Bytes)

/-! ### What is there -/

/-- What a mount shows. -/
inductive MountKind where
  | bind
  | namedVolume
  | anonymousVolume
deriving DecidableEq, Repr

/-- A bind mount or volume: its destination, which the daemon has cleaned, and where the daemon put
it. -/
structure ContainerMount where
  destination : Text
  place : List Name
  kind : MountKind
  readOnly : Bool
  cleaned : Paths.Rooted (Paths.ofText destination)

/-- A `tmpfs`: its destination, as written, and where the daemon will put it. -/
structure ContainerTmpfs where
  destination : Text
  place : List Name

/-- Who an entry belongs to, and its permission bits. -/
structure Ownership where
  uid : ℕ
  gid : ℕ
  mode : ℕ
deriving DecidableEq, Repr

/-- A created container.  The mounts are in the order they were made in, a later one on top.
`special` says which of the entries that are neither directories nor links are no regular files. -/
structure CreatedContainer where
  user : Text
  mounts : List ContainerMount
  tmpfs : List ContainerTmpfs
  links : ℕ
  tree : FileTree
  special : List Name → Bool
  contents : List Name → Bytes
  ownership : List Name → Ownership

/-- `ContainerPathStat`. -/
structure ContainerPathStat where
  kind : ContainerPathKind
  size : ℕ

/-- `ContainerFile`. -/
structure ContainerFile where
  contents : Bytes
  mode : ℕ
  uid : ℕ
  gid : ℕ

/-- `DirectoryOwnership`. -/
structure DirectoryOwnership where
  uid : ℕ
  mode : ℕ
deriving DecidableEq, Repr

namespace CreatedContainer

variable (container : CreatedContainer)

/-- The mounts, and the `tmpfs`, that Docker recorded. -/
def facts : CreatedContainerFacts where
  mountDestinations := container.mounts.map ContainerMount.destination
  tmpfsDestinations := container.tmpfs.map ContainerTmpfs.destination

/-- A place at or inside a mount or a `tmpfs`. -/
def InAMount (place : List Name) : Prop :=
  (∃ mount ∈ container.mounts, mount.place <+: place) ∨
    ∃ tmpfs ∈ container.tmpfs, tmpfs.place <+: place

/-- What a place is in: the last mount made at it or above it. -/
def mountOver (place : List Name) : Option ContainerMount :=
  (container.mounts.filter fun mount => mount.place.isPrefixOf place).getLast?

/-- The root of a named volume that can be written to. -/
def IsCacheRoot (place : List Name) : Prop :=
  ∃ mount, container.mountOver place = some mount ∧ mount.place = place ∧
    mount.kind = .namedVolume ∧
    mount.readOnly = false

/-- A `tmpfs` will be mounted over what is at a place: it is the deepest one above it and not at it,
and nothing that is mounted on the way goes on top of it. -/
def Hidden (place : List Name) : Prop :=
  ∃ tmpfs ∈ container.tmpfs, tmpfs.place <+: place ∧ tmpfs.place ≠ place ∧
    (∀ other ∈ container.tmpfs, other.place <+: place → other.place.length ≤ tmpfs.place.length) ∧
    ∀ mount ∈ container.mounts, mount.place <+: place → mount.place.length < tmpfs.place.length

/-- A directory that belongs to root. -/
def IsRoots (place : List Name) : Prop :=
  container.tree.kind? place = some .dir ∧ (container.ownership place).uid = 0

/-! ### What is found -/

/-- The container's file system: every name can be one of an entry, and nothing is refused. -/
def fileSystem : FileSystem := ⟨container.links, [], fun _ => true, fun _ _ => none⟩

/-- Where a path's last component stands or would stand, which is not followed. -/
def entryPlace (path : Path) : Except IoError (List Name) :=
  container.fileSystem.entryPlace container.tree path

/-- Where a path leads, the last component followed too. -/
def follow (path : Path) : Except IoError (List Name) :=
  container.fileSystem.follow container.tree path

/-- What is at a place. -/
def kindAt (place : List Name) : Option ContainerPathKind :=
  (container.tree.kind? place).map fun
    | .dir => .directory
    | .symlink _ => .symbolicLink
    | .file => if container.special place then .other else .regularFile

def shownPath (path : Path) : String := String.ofList (printable (Paths.toText path))

/-- What the daemon says of a path it can't find or follow. -/
def refusal (path : Path) : IoError → String
  | .notFound => s!"Could not find '{shownPath path}'"
  | .alreadyExists => s!"'{shownPath path}' exists"
  | .permissionDenied => s!"'{shownPath path}' can't be reached"
  | .other message => message

/-- The place of something that is there. -/
def found (path : Path) : Except String (List Name) :=
  match container.entryPlace path with
  | .error e => .error (refusal path e)
  | .ok place =>
      if container.tree.kind? place = none then .error (refusal path .notFound) else .ok place

/-- `stat_container_path`: nothing for a path that isn't there, by a 404, and an error for any other
refusal. -/
def stat (path : Path) : Except String (Option ContainerPathStat) :=
  match container.entryPlace path with
  | .error .notFound => .ok none
  | .error e => .error s!"Failed to check '{shownPath path}': {refusal path e}"
  | .ok place =>
      .ok ((container.kindAt place).map fun kind =>
        ⟨kind, if kind = .regularFile then (container.contents place).length else 0⟩)

/-- `read_container_file`. -/
def readFile (path : Path) : Except String ContainerFile :=
  Except.withContext s!"Failed to read '{shownPath path}'" (do
    let place ← container.found path
    if container.kindAt place = some .regularFile then
      let owner := container.ownership place
      .ok ⟨container.contents place, owner.mode, owner.uid, owner.gid⟩
    else .error "The archive's first entry is not a regular file")

/-- `container_directory_ownership`: of whatever the archive's first entry is. -/
def directoryOwnership (path : Path) : Except String DirectoryOwnership :=
  Except.withContext s!"Failed to read '{shownPath path}'" (do
    let place ← container.found path
    .ok ⟨(container.ownership place).uid, (container.ownership place).mode⟩)

/-! ### What is written -/

/-- Another node in the place of one that is there. -/
def replaceNode (node : Node) : List Name → List (Name × Node) → List (Name × Node)
  | [], entries => entries
  | [name], entries => entries.map fun e => (e.1, if e.1 = name then node else e.2)
  | above :: rest, entries =>
      entries.map fun e => (e.1,
        if e.1 = above then FileTree.intoDir (replaceNode node rest) e.2 else e.2)

/-- An owner and mode for what is at a place. -/
def own (place : List Name) (owner : Ownership) : CreatedContainer :=
  { container with ownership := Function.update container.ownership place owner }

/-- A node at a place, which may hold another one. -/
def put (place : List Name) (node : Node) : CreatedContainer :=
  { container with
    tree :=
      if container.tree.kind? place = none then ⟨FileTree.put node place container.tree.entries⟩
      else ⟨replaceNode node place container.tree.entries⟩
    special := Function.update container.special place false }

/-- An archive's entry for a directory: one that is there gets the owner and mode, and anything else
makes way. -/
def extractDirectory (place : List Name) (owner : Ownership) : CreatedContainer :=
  if container.tree.kind? place = some .dir then container.own place owner
  else (container.put place (.dir [])).own place owner

/-- An archive's entry for a file, for which anything but a directory makes way. -/
def extractFile (place : List Name) (file : ContainerFile) : Except String CreatedContainer :=
  if container.tree.kind? place = some .dir then .error "cannot overwrite a directory with a file"
  else
    let container := (container.put place .file).own place ⟨file.uid, file.gid, file.mode⟩
    .ok { container with contents := Function.update container.contents place file.contents }

/-- `write_container_file`: an upload into the parent, which has to be there. -/
def writeFile (path : Path) (file : ContainerFile) : Except String CreatedContainer :=
  Except.withContext s!"Failed to write '{shownPath path}'" (
    match container.entryPlace path with
    | .error e => .error (refusal path e)
    | .ok place => container.extractFile place file)

/-- `set_container_directory_ownership`: an upload into `/`, of an archive that names the path from
there (`build_directory_ownership_tar`). -/
def setDirectoryOwnership (path : Path) (owner : DirectoryOwner) (mode : ℕ) :
    Except String CreatedContainer :=
  if path.head? ≠ some .root then .error s!"'{shownPath path}' is not an absolute path"
  else if path.tail = [] then
    .error s!"Invalid directory '{shownPath path}': paths in archives must have at least one component"
  else
    Except.withContext s!"Failed to take ownership of '{shownPath path}'" (do
      let place ← container.found path
      .ok (container.extractDirectory place ⟨owner.uid, owner.gid, mode⟩))

/-- The names of a path. -/
def namesOf (path : Path) : List Name :=
  path.filterMap fun
    | .normal name => some name
    | _ => none

/-- The directories of `build_new_directories_tar` below a place: each is root's, and the last the
owner's. -/
def makeDirectories (owner : DirectoryOwner) :
    List Name → List Name → CreatedContainer → CreatedContainer
  | _, [], container => container
  | place, [name], container =>
      container.extractDirectory (place ++ [name]) ⟨owner.uid, owner.gid, 0o755⟩
  | place, name :: rest, container =>
      makeDirectories owner (place ++ [name]) rest
        (container.extractDirectory (place ++ [name]) ⟨0, 0, 0o755⟩)

/-- `create_container_directories`: an upload into a directory, to which the links of its path are
followed. -/
def createDirectories (into relative : Path) (owner : DirectoryOwner) :
    Except String CreatedContainer :=
  Except.withContext s!"Failed to create '{shownPath relative}' in '{shownPath into}'" (
    match container.follow into with
    | .error e => .error (refusal into e)
    | .ok place =>
        if container.tree.kind? place ≠ some .dir then
          .error s!"'{shownPath into}' is not a directory"
        else .ok (makeDirectories owner place (namesOf relative) container))

/-! ### Where something is found -/

section found

variable {container : CreatedContainer}

/-- What `stat_container_path` says is at a path. -/
def statKind (container : CreatedContainer) : Stat :=
  fun path => (container.stat path).map (Option.map ContainerPathStat.kind)

theorem found_eq_ok {path : Path} {place : List Name} :
    container.found path = .ok place ↔
      container.entryPlace path = .ok place ∧ container.tree.kind? place ≠ none := by
  unfold found
  cases container.entryPlace path with
  | error e => simp
  | ok place' =>
      dsimp only
      split
      · next hnone =>
          constructor
          · intro h
            cases h
          · rintro ⟨h, hthere⟩
            cases h
            exact absurd hnone hthere
      · next hthere =>
          constructor
          · intro h
            cases h
            exact ⟨rfl, hthere⟩
          · rintro ⟨h, -⟩
            cases h
            rfl

theorem directoryOwnership_eq_ok {path : Path} {ownership : DirectoryOwnership} :
    container.directoryOwnership path = .ok ownership ↔
      ∃ place, container.found path = .ok place ∧
        ownership = ⟨(container.ownership place).uid, (container.ownership place).mode⟩ := by
  unfold directoryOwnership
  rw [Except.withContext_eq_ok, Except.bind_eq_ok]
  refine exists_congr fun place => and_congr_right fun _ => ?_
  rw [Except.ok.injEq]
  exact eq_comm

theorem kindAt_eq_directory {place : List Name} :
    container.kindAt place = some .directory ↔ container.tree.kind? place = some .dir := by
  unfold kindAt
  cases container.tree.kind? place with
  | none => simp
  | some kind =>
      cases kind with
      | dir => simp
      | symlink target => simp
      | file => by_cases h : container.special place <;> simp [h]

theorem kindAt_eq_none {place : List Name} :
    container.kindAt place = none ↔ container.tree.kind? place = none := by
  unfold kindAt
  exact Option.map_eq_none_iff

/-- Something is said to be at a path that has a place, and is there. -/
theorem stat_eq_some {path : Path} {stat : ContainerPathStat} :
    container.stat path = .ok (some stat) ↔
      ∃ place, container.entryPlace path = .ok place ∧ container.kindAt place = some stat.kind ∧
        stat.size = if stat.kind = .regularFile then (container.contents place).length else 0 := by
  obtain ⟨kind, size⟩ := stat
  unfold CreatedContainer.stat
  cases container.entryPlace path with
  | error e => cases e <;> simp
  | ok place =>
      simp only [Except.ok.injEq, exists_eq_left', Option.map_eq_some_iff,
        ContainerPathStat.mk.injEq]
      constructor
      · rintro ⟨there, hthere, rfl, rfl⟩
        exact ⟨hthere, rfl⟩
      · rintro ⟨hthere, hsize⟩
        exact ⟨kind, hthere, rfl, hsize.symm⟩

/-- A regular file is read. -/
theorem readFile_regular {path : Path} {place : List Name}
    (hplace : container.entryPlace path = .ok place)
    (hkind : container.kindAt place = some .regularFile) :
    container.readFile path = .ok ⟨container.contents place, (container.ownership place).mode,
      (container.ownership place).uid, (container.ownership place).gid⟩ := by
  have hthere : container.tree.kind? place ≠ none := by
    rw [Ne, ← kindAt_eq_none, hkind]
    simp
  unfold readFile
  rw [found_eq_ok.mpr ⟨hplace, hthere⟩]
  refine Except.withContext_eq_ok.mpr (Except.bind_eq_ok.mpr ⟨place, rfl, ?_⟩)
  rw [if_pos hkind]

/-- What is said of a path that has a place. -/
theorem stat_place {path : Path} {place : List Name}
    (hplace : container.entryPlace path = .ok place) :
    container.statKind path = .ok (container.kindAt place) := by
  unfold statKind stat
  rw [hplace]
  dsimp only [Except.map]
  rw [Option.map_map]
  exact congrArg Except.ok (congrFun Option.map_id _)

/-- Nothing is found where nothing is said to be. -/
theorem not_found_of_statKind {path : Path} (h : container.statKind path = .ok none)
    (place : List Name) : container.found path ≠ .ok place := by
  intro hfound
  obtain ⟨hplace, hthere⟩ := found_eq_ok.mp hfound
  rw [stat_place hplace, Except.ok.injEq, kindAt_eq_none] at h
  exact hthere h

theorem unfit_start {path rest : Path} (hpath : path ≠ [])
    (h : FileSystem.unfit (path ++ rest) = none) : FileSystem.unfit path = none := by
  unfold FileSystem.unfit at h ⊢
  rw [if_neg hpath]
  rw [if_neg (by simp [hpath]), List.any_append] at h
  split at h
  · cases h
  · next hnul =>
      rw [Bool.or_eq_true, not_or] at hnul
      rw [if_neg hnul.1]

theorem entryPlace_name {path : Path} {name : Name} {place : List Name} :
    container.entryPlace (path ++ [.normal name]) = .ok place ↔
      FileSystem.unfit (path ++ [.normal name]) = none ∧
        ∃ above, container.follow path = .ok above ∧ container.tree.kind? above = some .dir ∧
          place = above ++ [name] := by
  unfold entryPlace FileSystem.entryPlace follow
  cases FileSystem.unfit (path ++ [.normal name]) with
  | some e => simp
  | none =>
      rw [List.getLast?_concat, List.dropLast_concat]
      cases container.fileSystem.follow container.tree path with
      | error e => simp
      | ok above =>
          by_cases hdir : container.tree.kind? above = some .dir
          · simp [hdir, fileSystem, eq_comm]
          · simp [hdir]

/-- What a path leads to is found through whatever it starts with. -/
theorem follow_start {path rest : Path} {place : List Name}
    (habsolute : Paths.isAbsolute path = true) (h : container.follow (path ++ rest) = .ok place) :
    ∃ mid, container.follow path = .ok mid := by
  have hall : Paths.isAbsolute (path ++ rest) = true := by
    cases path with
    | nil => cases habsolute
    | cons c path => exact habsolute
  unfold follow at h ⊢
  rw [FileSystem.follow_eq_ok, FileSystem.locate, Paths.join_absolute hall] at h
  simp only [FileSystem.follow_eq_ok, FileSystem.locate, Paths.join_absolute habsolute]
  cases hstart : container.tree.realpath container.fileSystem.links [] path with
  | ok mid => exact ⟨mid, rfl⟩
  | error why =>
      rw [(FileTree.realpath_append _ _ _ _).1 why hstart] at h
      cases h

/-- A name on the way to what a path leads to is there. -/
theorem found_of_follow {path : Path} {name : Name} {place : List Name}
    (habsolute : Paths.isAbsolute path = true)
    (hfit : FileSystem.unfit (path ++ [.normal name]) = none)
    (h : container.follow (path ++ [.normal name]) = .ok place) :
    ∃ there, container.found (path ++ [.normal name]) = .ok there := by
  obtain ⟨above, habove⟩ := follow_start habsolute h
  have hall : Paths.isAbsolute (path ++ [.normal name]) = true := by
    cases path with
    | nil => cases habsolute
    | cons c path => exact habsolute
  have hreal := habove
  unfold follow at h hreal
  rw [FileSystem.follow_eq_ok, FileSystem.locate, Paths.join_absolute hall] at h
  rw [FileSystem.follow_eq_ok, FileSystem.locate, Paths.join_absolute habsolute] at hreal
  obtain ⟨links, hrest⟩ := (FileTree.realpath_append _ _ _ [.normal name]).2 above hreal
  rw [hrest] at h
  obtain ⟨hdir, hthere⟩ : container.tree.kind? above = some .dir ∧
    container.tree.kind? (above ++ [name]) ≠ none := by
    by_contra hno
    have hstep : ∃ why, container.tree.step above (.normal name) = .fails why := by
      rw [FileTree.step_normal]
      split
      · next hdir =>
          cases hkind : container.tree.kind? (above ++ [name]) with
          | none => exact ⟨_, rfl⟩
          | some kind => exact absurd ⟨hdir, by simp [hkind]⟩ hno
      · exact ⟨_, rfl⟩
    obtain ⟨why, hstep⟩ := hstep
    have hwalk : container.tree.walk above [.normal name] = .failed why := by
      rw [FileTree.walk, hstep]
    rw [FileTree.realpath_failed hwalk] at h
    cases h
  exact ⟨above ++ [name], found_eq_ok.mpr
    ⟨entryPlace_name.mpr ⟨hfit, above, habove, hdir, rfl⟩, hthere⟩⟩

/-- Nothing is found below what is not there. -/
theorem not_found_below (path : Path) (name : Name) (below : List Name)
    (habsolute : Paths.isAbsolute path = true)
    (h : container.statKind (path ++ [.normal name]) = .ok none) (place : List Name) :
    container.found (path ++ [.normal name] ++ below.map .normal) ≠ .ok place := by
  rcases List.eq_nil_or_concat below with rfl | ⟨between, last, rfl⟩
  · rw [List.map_nil, List.append_nil]
    exact not_found_of_statKind h place
  · intro hfound
    rw [List.concat_eq_append, List.map_append, List.map_singleton, ← List.append_assoc] at hfound
    obtain ⟨hfit, above, habove, -, -⟩ := entryPlace_name.mp (found_eq_ok.mp hfound).1
    have hstart : Paths.isAbsolute (path ++ [.normal name]) = true := by
      cases path with
      | nil => cases habsolute
      | cons c path => exact habsolute
    obtain ⟨mid, hmid⟩ := follow_start hstart habove
    rw [List.append_assoc] at hfit
    obtain ⟨there, hthere⟩ := found_of_follow habsolute (unfit_start (by simp) hfit) hmid
    exact not_found_of_statKind h there hthere

/-! ### Owners -/

@[simp]
theorem found_own (place : List Name) (owner : Ownership) (path : Path) :
    (container.own place owner).found path = container.found path := rfl

/-- An owner other than root leaves root with less. -/
theorem uid_own {place other : List Name} {owner : Ownership} (howner : owner.uid ≠ 0) :
    ((container.own place owner).ownership other).uid = 0 ↔
      other ≠ place ∧ (container.ownership other).uid = 0 := by
  unfold own
  dsimp only
  by_cases h : other = place
  · simp [h, howner]
  · simp [h]

/-- A directory that is there gets its owner. -/
theorem setDirectoryOwnership_dir {path : Path} {place : List Name}
    (habsolute : path.head? = some .root) (hbelow : path.tail ≠ [])
    (hfound : container.found path = .ok place) (hdir : container.tree.kind? place = some .dir)
    (owner : DirectoryOwner) (mode : ℕ) :
    container.setDirectoryOwnership path owner mode =
      .ok (container.own place ⟨owner.uid, owner.gid, mode⟩) := by
  unfold setDirectoryOwnership
  rw [if_neg (not_not.mpr habsolute), if_neg hbelow, Except.withContext_eq_ok, Except.bind_eq_ok]
  refine ⟨place, hfound, ?_⟩
  unfold extractDirectory
  rw [if_pos hdir]

end found

end CreatedContainer

end Ratect
