import Ratect.Binds
import Ratect.RealPaths
import Ratect.FileWrites

/-! # Mount points on the host

`ensure_host_volume_directories_exist` (`docker.rs`): each host mount's own source, as a directory,
when it is missing (`create_missing_host_sources`), and each mount point that falls inside a host
mount, inside that mount's source (`create_nested_mount_points`, `missing_mount_point`).

The tree that a mount's turn in the loop finds is recorded with each entry made in it.  Every entry
is missing until then, is inside the resolved source of the closest enclosing mount, a host mount of
a directory, and is a file exactly if it is the mount point itself and the mount's own source is
there and no directory (`nested_mount_points_stay_inside`). -/

namespace Ratect

open Paths (Path Name FileTree FileSystem Kind Fresh IoError Disk Made Grown)

/-! ### The mounts -/

/-- `BindMount::host_path`. -/
def BindMount.hostPath (bind : BindMount) : Option Path :=
  match bind.source with
  | .host path => some (Paths.ofText path)
  | .volume _ => none

/-- `is_special_docker_desktop_path`. -/
def isSpecialDockerDesktopPath (path : Path) : Bool :=
  Paths.startsWith path (Paths.ofText "/run/host-services".toList) ||
    Paths.startsWith path (Paths.ofText "/run/guest-services".toList)

/-- `container_path_segments`: the names of the cleaned path. -/
def containerPathSegments (path : Text) : List Name :=
  (Paths.clean (Paths.ofText path)).filterMap fun component =>
    match component with
    | .normal segment => some segment
    | _ => none

/-- `MountPoint`: one mount's container path. -/
structure MountPoint where
  container : Text
  segments : List Name
  hostSource : Option Path
deriving DecidableEq

/-- The mounts of `create_nested_mount_points`: the binds, then each `tmpfs` with its options. -/
def mountPoints (binds : List BindMount) (tmpfs : List (Text × Text)) : List MountPoint :=
  let mounts : List (Text × Option Path) :=
    binds.map (fun bind => (bind.container, bind.hostPath)) ++ tmpfs.map fun (container, _) =>
      (container, none)
  mounts.map fun (container, hostSource) => ⟨container, containerPathSegments container, hostSource⟩

/-- `Iterator::max_by_key`: of several elements with the greatest key, the last. -/
def maxByKey {α : Type} (key : α → ℕ) : List α → Option α
  | [] => none
  | a :: rest =>
      match maxByKey key rest with
      | none => some a
      | some b => if key a ≤ key b then some b else some a

/-- The container path of a mount is inside that of another one. -/
def MountPoint.encloses (parent mount : MountPoint) : Bool :=
  parent.segments.length < mount.segments.length && parent.segments.isPrefixOf mount.segments

/-- `closest_parent`. -/
def closestParent (mounts : List MountPoint) (mount : MountPoint) : Option MountPoint :=
  maxByKey (fun parent : MountPoint => parent.segments.length)
    (mounts.filter fun parent => parent.encloses mount)

/-! ### What is made -/

/-- Why an entry is made: it is the source of a host mount, or what is there for a mount in its
turn, with the tree that the turn found. -/
inductive Purpose where
  | hostSource (path : Path)
  | mountPoint (mount : MountPoint) (found : FileTree)

variable (fs : FileSystem)

/-- `create_missing_host_sources`, from a bind on. -/
def createMissingHostSources : List BindMount → Disk Purpose → Disk Purpose × Except String Unit
  | [], disk => (disk, .ok ())
  | bind :: binds, disk =>
      match bind.hostPath with
      | none => createMissingHostSources binds disk
      | some path =>
          if isSpecialDockerDesktopPath path then createMissingHostSources binds disk
          else if fs.pathExists disk.tree path then createMissingHostSources binds disk
          else
            match fs.createDirAll (.hostSource path) path disk with
            | (disk, .ok ()) => createMissingHostSources binds disk
            | (disk, .error _) =>
                (disk, .error s!"Failed to create host directory {debugPath path}")

/-- The loop of `missing_mount_point`, over the components that are left. -/
def missingMountPointFrom (tree : FileTree) (root resolved : Path) : List Name → Option Path
  | [] => none
  | segment :: rest =>
      let next := Paths.join resolved [.normal segment]
      match fs.symlinkMetadata tree next with
      | .ok _ =>
          if rest = [] then none
          else
            match fs.canonicalize tree next with
            | .error _ => none
            | .ok real =>
                if !Paths.startsWith (pathOf real) root || !fs.isDir tree (pathOf real) then none
                else missingMountPointFrom tree root (pathOf real) rest
      | .error .notFound =>
          some ((segment :: rest).foldl
            (fun path segment => Paths.join path [.normal segment]) resolved)
      | .error _ => none

/-- `missing_mount_point`. -/
def missingMountPoint (tree : FileTree) (parentSource : Path)
    (segments : List Name) : Option Path :=
  match fs.canonicalize tree parentSource with
  | .error _ => none
  | .ok root => missingMountPointFrom fs tree (pathOf root) (pathOf root) segments

/-- `source_is_a_file`: a mount has a host source that is there and is no directory. -/
def sourceIsAFile (tree : FileTree) (mount : MountPoint) : Bool :=
  match mount.hostSource with
  | some source => fs.pathExists tree source && !fs.isDir tree source
  | none => false

/-- An empty file at a path, with every directory above it, or a directory. -/
def createMountPoint (isAFile : Bool) (owner : Purpose) (path : Path) (disk : Disk Purpose) :
    Disk Purpose × Except IoError Unit :=
  if isAFile then
    match Paths.parent path with
    | none => fs.make owner .file path disk
    | some parent =>
        match fs.createDirAll owner parent disk with
        | (disk, .ok ()) => fs.make owner .file path disk
        | (disk, .error e) => (disk, .error e)
  else fs.createDirAll owner path disk

/-- One mount's turn in `create_nested_mount_points`. -/
def nestMount (mounts : List MountPoint) (mount : MountPoint) (disk : Disk Purpose) :
    Disk Purpose × Except String Unit :=
  match closestParent mounts mount with
  | none => (disk, .ok ())
  | some parent =>
      match parent.hostSource.filter fun source => fs.isDir disk.tree source with
      | none => (disk, .ok ())
      | some parentSource =>
          if mount.hostSource.any isSpecialDockerDesktopPath then (disk, .ok ())
          else
            match missingMountPoint fs disk.tree parentSource
              (mount.segments.drop parent.segments.length) with
            | none => (disk, .ok ())
            | some path =>
                match createMountPoint fs (sourceIsAFile fs disk.tree mount)
                  (.mountPoint mount disk.tree) path
                    disk with
                | (disk, .ok ()) => (disk, .ok ())
                | (disk, .error .permissionDenied) => (disk, .ok ())
                | (disk, .error _) =>
                    (disk, .error ("Failed to create the mount point for " ++
                      s!"{String.ofList (printable mount.container)} at {debugPath path}"))

/-- The loop of `create_nested_mount_points`, from a mount on. -/
def nestMounts (mounts : List MountPoint) :
    List MountPoint → Disk Purpose → Disk Purpose × Except String Unit
  | [], disk => (disk, .ok ())
  | mount :: rest, disk =>
      match nestMount fs mounts mount disk with
      | (disk, .ok ()) => nestMounts mounts rest disk
      | (disk, .error message) => (disk, .error message)

/-- `create_nested_mount_points`. -/
def createNestedMountPoints (binds : List BindMount) (tmpfs : List (Text × Text))
    (disk : Disk Purpose) : Disk Purpose × Except String Unit :=
  nestMounts fs (mountPoints binds tmpfs) (mountPoints binds tmpfs) disk

/-- `ensure_host_volume_directories_exist`. -/
def ensureHostVolumeDirectoriesExist (binds : List BindMount) (tmpfs : List (Text × Text))
    (disk : Disk Purpose) : Disk Purpose × Except String Unit :=
  match createMissingHostSources fs binds disk with
  | (disk, .ok ()) => createNestedMountPoints fs binds tmpfs disk
  | (disk, .error message) => (disk, .error message)

/-! ### The closest enclosing mount -/

/-- A mount's container path is strictly inside another one's. -/
def Encloses (parent mount : MountPoint) : Prop :=
  parent.segments <+: mount.segments ∧ parent.segments ≠ mount.segments

/-- The closest enclosing mount: none that encloses the mount has a longer container path, and none
listed after it has one as long. -/
def ClosestEnclosing (mounts : List MountPoint) (mount parent : MountPoint) : Prop :=
  ∃ before after, mounts = before ++ parent :: after ∧ Encloses parent mount ∧
    (∀ other ∈ before, Encloses other mount → other.segments.length ≤ parent.segments.length) ∧
    ∀ other ∈ after, Encloses other mount → other.segments.length < parent.segments.length

theorem encloses_iff {parent mount : MountPoint} :
    parent.encloses mount = true ↔ Encloses parent mount := by
  unfold MountPoint.encloses Encloses
  rw [Bool.and_eq_true, decide_eq_true_eq, List.isPrefixOf_iff_prefix]
  constructor
  · rintro ⟨hlength, hbegins⟩
    refine ⟨hbegins, ?_⟩
    intro heq
    rw [heq] at hlength
    exact lt_irrefl _ hlength
  · rintro ⟨hbegins, hne⟩
    exact ⟨lt_of_le_of_ne hbegins.length_le fun hlength => hne
      (hbegins.eq_of_length hlength), hbegins⟩

section key

variable {α : Type} {key : α → ℕ}

theorem maxByKey_mem {l : List α} {a : α} (h : maxByKey key l = some a) : a ∈ l := by
  induction l with
  | nil => cases h
  | cons b rest ih =>
      rw [maxByKey] at h
      split at h
      · cases h
        exact List.mem_cons_self
      · next c hc =>
          split at h
          · cases h
            exact List.mem_cons_of_mem _ (ih hc)
          · cases h
            exact List.mem_cons_self

/-- The last of the elements with the greatest key. -/
theorem maxByKey_eq_some {l : List α} {a : α} :
    maxByKey key l = some a ↔
      ∃ before after, l = before ++ a :: after ∧ (∀ b ∈ before, key b ≤ key a) ∧
      ∀ b ∈ after, key b < key a := by
  constructor
  · intro h
    induction l generalizing a with
    | nil => cases h
    | cons b rest ih =>
        rw [maxByKey] at h
        split at h
        · next hnone =>
            cases h
            refine ⟨[], rest, rfl, by simp, ?_⟩
            intro c hc
            cases rest with
            | nil => cases hc
            | cons d rest =>
                rw [maxByKey] at hnone
                split at hnone
                · cases hnone
                · split at hnone
                  · cases hnone
                  · cases hnone
        · next c hc =>
            obtain ⟨before, after, hsplit, hbefore, hafter⟩ := ih hc
            split at h
            · next hle =>
                cases h
                refine ⟨b :: before, after, by rw [hsplit]; rfl, ?_, hafter⟩
                intro d hd
                rcases List.mem_cons.mp hd with rfl | hd
                · exact hle
                · exact hbefore d hd
            · next hlt =>
                cases h
                refine ⟨[], rest, rfl, by simp, ?_⟩
                intro d hd
                rw [hsplit] at hd
                rcases List.mem_append.mp hd with hd | hd
                · exact (hbefore d hd).trans_lt (not_le.mp hlt)
                · rcases List.mem_cons.mp hd with rfl | hd
                  · exact not_le.mp hlt
                  · exact (hafter d hd).trans (not_le.mp hlt)
  · rintro ⟨before, after, rfl, hbefore, hafter⟩
    induction before with
    | nil =>
        rw [List.nil_append, maxByKey]
        split
        · rfl
        · next b hb => rw [if_neg (not_le.mpr (hafter b (maxByKey_mem hb)))]
    | cons b before ih =>
        rw [List.cons_append, maxByKey, ih fun c hc => hbefore c (List.mem_cons_of_mem _ hc)]
        exact if_pos (hbefore b List.mem_cons_self)

end key

/-- The loop picks the closest enclosing mount, and there is no other. -/
theorem closestParent_eq_some {mounts : List MountPoint} {mount parent : MountPoint} :
    closestParent mounts mount = some parent ↔ ClosestEnclosing mounts mount parent := by
  unfold closestParent
  rw [maxByKey_eq_some]
  constructor
  · rintro ⟨before, after, hsplit, hbefore, hafter⟩
    obtain ⟨front, back, rfl, rfl, hback⟩ := List.filter_eq_append_iff.mp hsplit
    obtain ⟨skipped, behind, rfl, hskipped, hparent, rfl⟩ := List.filter_eq_cons_iff.mp hback
    refine ⟨front ++ skipped, behind, by simp, encloses_iff.mp hparent, ?_, ?_⟩
    · intro other hother hencloses
      rcases List.mem_append.mp hother with hother | hother
      · exact hbefore other (List.mem_filter.mpr ⟨hother, encloses_iff.mpr hencloses⟩)
      · exact absurd (encloses_iff.mpr hencloses) (hskipped other hother)
    · intro other hother hencloses
      exact hafter other (List.mem_filter.mpr ⟨hother, encloses_iff.mpr hencloses⟩)
  · rintro ⟨before, after, rfl, hparent, hbefore, hafter⟩
    refine ⟨before.filter fun other => other.encloses mount, after.filter fun other =>
      other.encloses mount,
      ?_, ?_, ?_⟩
    · rw [List.filter_append]
      exact congrArg _ (List.filter_cons_of_pos (encloses_iff.mpr hparent))
    · intro other hother
      obtain ⟨hother, hencloses⟩ := List.mem_filter.mp hother
      exact hbefore other hother (encloses_iff.mp hencloses)
    · intro other hother
      obtain ⟨hother, hencloses⟩ := List.mem_filter.mp hother
      exact hafter other hother (encloses_iff.mp hencloses)

/-! ### Where a mount point is made -/

section tree

variable {fs} {tree : FileTree}

theorem locate_pathOf (names : List Name) : fs.locate (pathOf names) = pathOf names :=
  FileSystem.locate_absolute _

theorem canonicalize_linkless {path : Path} {place : List Name}
    (h : fs.canonicalize tree path = .ok place) : tree.Linkless place :=
  (FileSystem.follow_resolves (FileSystem.canonicalize_eq_ok.mp h).2).linkless
    FileTree.linkless_root

/-- A path without links leads to the place it names. -/
theorem canonicalize_pathOf {names place : List Name} (hnames : tree.Linkless names)
    (h : fs.canonicalize tree (pathOf names) = .ok place) : place = names := by
  have hplace := FileSystem.follow_resolves (FileSystem.canonicalize_eq_ok.mp h).2
  rw [locate_pathOf] at hplace
  exact hnames.eq_of_resolves hplace

theorem follow_pathOf {names : List Name} (hnames : tree.Linkless names)
    (hthere : tree.kind? names ≠ none) : fs.follow tree (pathOf names) = .ok names := by
  rw [FileSystem.follow_eq_ok, locate_pathOf]
  exact FileTree.realpath_arrived (hnames.walk hthere) _

/-- An entry of a directory that is not found is missing. -/
theorem symlinkMetadata_notFound {names : List Name} {name : Name} (hnames : tree.Linkless names)
    (hthere : tree.kind? names ≠ none)
    (h : fs.symlinkMetadata tree (pathOf (names ++ [name])) = .error .notFound) :
    tree.kind? (names ++ [name]) = none := by
  have hlast : (pathOf (names ++ [name])).getLast? = some (.normal name) := by
    rw [pathOf_append]
    simp
  have hinit : (pathOf (names ++ [name])).dropLast = pathOf names := by
    rw [pathOf_append]
    simp
  have hfit : FileSystem.unfit (pathOf (names ++ [name])) ≠ some .notFound := by
    unfold FileSystem.unfit
    rw [if_neg (by simp [pathOf])]
    split
    · simp
    · simp
  unfold FileSystem.symlinkMetadata FileSystem.entryPlace at h
  cases hunfit : FileSystem.unfit (pathOf (names ++ [name])) with
  | some e =>
      rw [hunfit] at h hfit
      cases h
      exact absurd rfl hfit
  | none =>
      rw [hunfit] at h
      dsimp only at h
      rw [hlast, hinit] at h
      dsimp only at h
      rw [follow_pathOf hnames hthere] at h
      dsimp only at h
      split at h
      · next e he =>
          split at he
          · cases he
            cases h
          · split at he
            · cases he
              cases h
            · cases he
      · next place hplace =>
          split at hplace
          · cases hplace
          · split at hplace
            · cases hplace
            · cases hplace
              split at h
              · cases h
              · next hnone => exact hnone

/-- `missing_mount_point` follows what is there as long as it stays inside a directory, and what is
left to make starts with a name that is missing. -/
theorem missingMountPointFrom_spec {start path : Path} {root place done segments : List Name}
    (hplace : tree.Resolves [] (start ++ done.map .normal) place) (hlinkless : tree.Linkless place)
    (hdir : tree.kind? place = some .dir) (hroot : root <+: place)
    (h : missingMountPointFrom fs tree (pathOf root) (pathOf place) segments = some path) :
    ∃ followed first rest real,
      segments = followed ++ first :: rest ∧ path = pathOf (real ++ first :: rest) ∧
      tree.Resolves [] (start ++ (done ++ followed).map .normal) real ∧ tree.Linkless real ∧
      tree.kind? real = some .dir ∧ root <+: real ∧ tree.kind? (real ++ [first]) = none := by
  induction segments generalizing place done with
  | nil => cases h
  | cons segment rest ih =>
      have hnext : Paths.join (pathOf place) [.normal segment] = pathOf (place ++ [segment]) :=
        foldl_join place [segment]
      rw [missingMountPointFrom, hnext] at h
      cases hmeta : fs.symlinkMetadata tree (pathOf (place ++ [segment])) with
      | ok kind =>
          rw [hmeta] at h
          dsimp only at h
          split at h
          · cases h
          · cases hreal : fs.canonicalize tree (pathOf (place ++ [segment])) with
            | error e =>
                rw [hreal] at h
                cases h
            | ok real =>
                rw [hreal] at h
                dsimp only at h
                split at h
                · cases h
                · next hstays =>
                    rw [Bool.or_eq_true, not_or, Bool.not_eq_true',
                      Bool.not_eq_false, Bool.not_eq_true', Bool.not_eq_false,
                      startsWith_pathOf] at hstays
                    obtain ⟨hinside, hisDir⟩ := hstays
                    have hreallinkless := canonicalize_linkless hreal
                    have hrealdir : tree.kind? real = some .dir := by
                      obtain ⟨real', hreal', hkind⟩ := FileSystem.isDir_iff.mp hisDir
                      rwa [canonicalize_pathOf hreallinkless hreal'] at hkind
                    have hpath :=
                      FileSystem.follow_resolves (FileSystem.canonicalize_eq_ok.mp hreal).2
                    rw [locate_pathOf, pathOf_append] at hpath
                    obtain ⟨mid, hmid, hlast⟩ := hpath.split rfl
                    obtain rfl := hlinkless.eq_of_resolves hmid
                    have hwhole := hplace.append hlast
                    rw [List.append_assoc, ← List.map_append] at hwhole
                    obtain ⟨followed, first, tail, found, rfl, hpath', hfound⟩ :=
                      ih hwhole hreallinkless hrealdir hinside h
                    refine ⟨segment :: followed, first, tail, found, rfl, hpath', ?_⟩
                    rwa [List.append_assoc, List.singleton_append] at hfound
      | error e =>
          rw [hmeta] at h
          cases e with
          | notFound =>
              dsimp only at h
              rw [foldl_join] at h
              cases h
              refine ⟨[], segment, rest, place, rfl, rfl, ?_, hlinkless, hdir, hroot, ?_⟩
              · rwa [List.append_nil]
              · exact symlinkMetadata_notFound hlinkless (by simp [hdir]) hmeta
          | alreadyExists => cases h
          | permissionDenied => cases h
          | other message => cases h

end tree

section made

variable {fs}

/-- What is made on the way to a place that no link is on is above it, or is the place, and below
what was there. -/
theorem madeOnTheWay_place {tree : FileTree} {owner : Purpose}
    {place names : List Name} {e : Made Purpose}
    {kind : Kind} (hlinkless : tree.Linkless (place ++ names)) (hplace : tree.kind? place ≠ none)
    (he : FileSystem.MadeOnTheWay fs tree owner (pathOf (place ++ names)) e kind)
    (hmissing : tree.kind? e.place = none) :
    ∃ taken left, names = taken ++ left ∧ taken ≠ [] ∧ e.place = place ++ taken := by
  obtain ⟨-, -, above, below, hsplit, habove, hresolves⟩ := he
  obtain ⟨front, hfront, hprefix⟩ : ∃ front, above = pathOf front ∧ front <+: place ++ names := by
    cases above with
    | nil => exact absurd rfl habove
    | cons c above =>
        obtain ⟨rfl, htail⟩ := List.cons.inj hsplit
        obtain ⟨front, back, hnames, hfront, -⟩ := List.map_eq_append_iff.mp htail
        exact ⟨front, by rw [pathOf, hfront], back, hnames.symm⟩
  subst hfront
  have hfrontlinkless : tree.Linkless front := fun p hp => hlinkless p (hp.trans hprefix)
  rw [locate_pathOf] at hresolves
  have heq : e.place = front := hfrontlinkless.eq_of_resolves hresolves
  rw [heq] at hmissing ⊢
  obtain ⟨taken, rfl⟩ :=
    FileTree.prefix_of_missing hplace hmissing hprefix (List.prefix_append place names)
  obtain ⟨left, hleft⟩ := hprefix
  rw [List.append_assoc, List.append_cancel_left_eq] at hleft
  refine ⟨taken, left, hleft.symm, ?_, rfl⟩
  rintro rfl
  rw [List.append_nil] at hmissing
  exact hplace hmissing

/-- What a call for a mount point makes: directories on the way and the mount point, which is a file
if it is to be one. -/
theorem grown_createMountPoint {isAFile : Bool} {owner : Purpose} {place rest : List Name}
    {first : Name} {disk : Disk Purpose} (hlinkless : disk.tree.Linkless place)
    (hplace : disk.tree.kind? place ≠ none) (hmissing : disk.tree.kind? (place ++ [first]) = none) :
    Grown (fun e kind => e.owner = owner ∧ ∃ taken left,
      first :: rest = taken ++ left ∧ taken ≠ [] ∧
        e.place = place ++ taken ∧ (kind = .dir ∨ kind = .file) ∧
          (kind = .file ↔ left = [] ∧ isAFile = true))
      disk (createMountPoint fs isAFile owner (pathOf (place ++ first :: rest)) disk).1 := by
  have hall : disk.tree.Linkless (place ++ first :: rest) := hlinkless.append_missing hmissing
  unfold createMountPoint
  split
  · next hfile =>
      obtain ⟨init, last, hrest⟩ : ∃ init last, first :: rest = init ++ [last] :=
        ⟨_, _, (List.dropLast_append_getLast (List.cons_ne_nil first rest)).symm⟩
      rw [hrest] at hall ⊢
      rw [← List.append_assoc] at hall ⊢
      rw [parent_pathOf]
      dsimp only
      have hinit : disk.tree.Linkless (place ++ init) :=
        fun p hp => hall p (hp.trans (List.prefix_append _ _))
      have hdirs := (@FileSystem.grown_createDirAll fs _ owner (pathOf (place ++ init)) disk).mono
        (Q := fun e kind => e.owner = owner ∧ ∃ taken left,
          init ++ [last] = taken ++ left ∧ taken ≠ [] ∧
          e.place = place ++ taken ∧ (kind = .dir ∨ kind = .file) ∧
            (kind = .file ↔ left = [] ∧ isAFile = true)) (by
        intro e kind hnone _ he
        obtain ⟨taken, left, rfl, htaken, heq⟩ := madeOnTheWay_place hinit hplace he hnone
        obtain ⟨howner, rfl, -⟩ := he
        exact ⟨howner, taken, left ++ [last], by simp, htaken, heq, Or.inl rfl, by simp⟩)
      split
      · next disk₁ h₁ =>
          rw [h₁] at hdirs
          refine hdirs.trans ((FileSystem.grown_make .file _ disk₁).mono ?_)
          rintro e kind - - ⟨howner, rfl, hresolves⟩
          rw [locate_pathOf] at hresolves
          have heq : e.place = place ++ init ++ [last] :=
            hall.eq_of_resolves (hdirs.resolves_iff.mp hresolves)
          refine ⟨howner, init ++ [last], [], by
            simp, by simp, by rw [heq, List.append_assoc], Or.inr rfl, ?_⟩
          simp [hfile, Fresh.kind]
      · next disk₁ e h₁ =>
          rw [h₁] at hdirs
          exact hdirs
  · next hdir =>
      refine (FileSystem.grown_createDirAll _ disk).mono ?_
      intro e kind hnone _ he
      obtain ⟨taken, left, hrest, htaken, heq⟩ := madeOnTheWay_place hall hplace he hnone
      obtain ⟨howner, rfl, -⟩ := he
      exact ⟨howner, taken, left, hrest, htaken, heq, Or.inl rfl, by simp [hdir]⟩

end made

/-! ### What holds of every entry that is made -/

/-- A mount's own source is there, and is no directory. -/
def OwnSourceIsAFile (tree : FileTree) (mount : MountPoint) : Prop :=
  ∃ source place, mount.hostSource = some source ∧ fs.canonicalize tree source = .ok place ∧
    tree.kind? place ≠ some .dir

/-- An entry at a place, made for a mount whose turn found a tree: inside the resolved source of the
closest enclosing mount, which is a directory of the host, where so many of the mount's segments
lead from there. -/
structure Nested (mounts : List MountPoint) (mount : MountPoint) (found : FileTree)
    (parent : MountPoint) (source : Path) (root above below place : List Name)
    (kind : Kind) : Prop where
  listed : mount ∈ mounts
  plain : ∀ own, mount.hostSource = some own → isSpecialDockerDesktopPath own = false
  closest : ∀ other, ClosestEnclosing mounts mount other ↔ other = parent
  host : parent.hostSource = some source
  resolved : fs.canonicalize found source = .ok root
  directory : found.kind? root = some .dir
  inside : root <+: place
  strictly : place ≠ root
  linkless : found.Linkless place
  segments : mount.segments = parent.segments ++ (above ++ below)
  some_segment : above ≠ []
  leads : found.Resolves [] (fs.locate source ++ above.map .normal) place
  dir_or_file : kind = .dir ∨ kind = .file
  file_iff : kind = .file ↔ below = [] ∧ OwnSourceIsAFile fs found mount

/-- That, of an entry made in a run from one tree to another. -/
def NestedEntry (mounts : List MountPoint) (first last : FileTree) (e : Made Purpose)
    (kind : Kind) : Prop :=
  ∃ mount found, e.owner = .mountPoint mount found ∧ first.Kept found ∧ found.Kept last ∧
    ∃ parent source root above below,
      Nested fs mounts mount found parent source root above below e.place kind

section nested

variable {fs}

theorem sourceIsAFile_iff {tree : FileTree} {mount : MountPoint} :
    sourceIsAFile fs tree mount = true ↔ OwnSourceIsAFile fs tree mount := by
  unfold sourceIsAFile OwnSourceIsAFile
  cases mount.hostSource with
  | none => simp
  | some source =>
      rw [Bool.and_eq_true, FileSystem.pathExists_iff, Bool.not_eq_true', ← Bool.not_eq_true,
        FileSystem.isDir_iff]
      constructor
      · rintro ⟨⟨place, hplace⟩, hnot⟩
        exact ⟨source, place, rfl, hplace, fun hkind => hnot ⟨place, hplace, hkind⟩⟩
      · rintro ⟨source', place, hsource, hplace, hkind⟩
        cases hsource
        refine ⟨⟨place, hplace⟩, ?_⟩
        rintro ⟨place', hplace', hkind'⟩
        rw [hplace] at hplace'
        cases hplace'
        exact hkind hkind'

theorem Encloses.drop {parent mount : MountPoint} (h : Encloses parent mount) :
    mount.segments = parent.segments ++ mount.segments.drop parent.segments.length := by
  obtain ⟨rest, hrest⟩ := h.1
  rw [← hrest, List.drop_left]

/-- One mount's turn. -/
theorem grown_nestMount {mounts : List MountPoint} {mount : MountPoint} (hmount : mount ∈ mounts)
    (disk : Disk Purpose) :
    Grown (fun e kind => e.owner = .mountPoint mount disk.tree ∧ ∃ parent source root above below,
        Nested fs mounts mount disk.tree parent source root above below e.place kind)
      disk (nestMount fs mounts mount disk).1 := by
  unfold nestMount
  split
  · exact .refl disk
  · next parent hparent =>
      split
      · exact .refl disk
      · next source hsource =>
          split
          · exact .refl disk
          · next hspecial =>
            split
            · exact .refl disk
            · next path hpath =>
                have hclosest := closestParent_eq_some.mp hparent
                obtain ⟨hhost, hisDir⟩ := Option.filter_eq_some_iff.mp hsource
                obtain ⟨root, hroot, hrootdir⟩ := FileSystem.isDir_iff.mp hisDir
                unfold missingMountPoint at hpath
                rw [hroot] at hpath
                have hstart : disk.tree.Resolves []
                    (fs.locate source ++ ([] : List Name).map .normal) root := by
                  rw [List.map_nil, List.append_nil]
                  exact FileSystem.follow_resolves (FileSystem.canonicalize_eq_ok.mp hroot).2
                obtain ⟨followed, first, rest, real, hsegments, rfl, hleads, hreal, hrealdir,
                  hinside, hmissing⟩ :=
                  missingMountPointFrom_spec hstart (canonicalize_linkless hroot) hrootdir
                    (List.prefix_refl root) hpath
                have hmade : Grown (fun e kind => e.owner = .mountPoint mount disk.tree ∧
                      ∃ parent source root above below,
                        Nested fs mounts mount disk.tree parent source root
                          above below e.place kind)
                    disk (createMountPoint fs (sourceIsAFile fs disk.tree mount)
                      (.mountPoint mount disk.tree)
                      (pathOf (real ++ first :: rest)) disk).1 := by
                  refine (grown_createMountPoint hreal (by simp [hrealdir]) hmissing).mono ?_
                  rintro e kind hnone - ⟨howner, taken, left, hrest, htaken, hplace, hkind, hfile⟩
                  obtain ⟨t, ts, rfl⟩ := List.exists_cons_of_ne_nil htaken
                  obtain ⟨rfl, hts⟩ := List.cons.inj hrest
                  have hencloses : Encloses parent mount := by
                    obtain ⟨_, _, -, hencloses, -⟩ := hclosest
                    exact hencloses
                  refine ⟨howner, parent, source, root, followed ++ first :: ts, left, ?_⟩
                  constructor
                  case listed => exact hmount
                  case plain =>
                    intro own hown
                    rw [hown] at hspecial
                    exact Bool.eq_false_iff.mpr hspecial
                  case closest =>
                    intro other
                    rw [← closestParent_eq_some, hparent, Option.some.injEq, eq_comm]
                  case host => exact hhost
                  case resolved => exact hroot
                  case directory => exact hrootdir
                  case inside =>
                    rw [hplace]
                    exact hinside.trans (List.prefix_append _ _)
                  case strictly =>
                    intro heq
                    rw [heq, hrootdir] at hnone
                    cases hnone
                  case linkless =>
                    rw [hplace]
                    exact hreal.append_missing hmissing
                  case segments =>
                    rw [hencloses.drop, hsegments, hts]
                    simp
                  case some_segment => simp
                  case leads =>
                    rw [hplace, List.map_append, ← List.append_assoc]
                    exact hleads.append (hreal.append_missing hmissing).resolves
                  case dir_or_file => exact hkind
                  case file_iff => rw [hfile, sourceIsAFile_iff]
                split
                · next h₁ =>
                    rw [h₁] at hmade
                    exact hmade
                · next h₁ =>
                    rw [h₁] at hmade
                    exact hmade
                · next h₁ =>
                    rw [h₁] at hmade
                    exact hmade

/-- The turns of some mounts, one after the other. -/
theorem grown_nestMounts {mounts rest : List MountPoint} (hrest : ∀ mount ∈ rest, mount ∈ mounts)
    (first : FileTree) (disk : Disk Purpose) (hfirst : first.Kept disk.tree) :
    Grown (NestedEntry fs mounts first (nestMounts fs mounts rest disk).1.tree) disk
      (nestMounts fs mounts rest disk).1 := by
  induction rest generalizing disk with
  | nil => exact .refl disk
  | cons mount rest ih =>
      have hturn := @grown_nestMount fs mounts mount (hrest mount List.mem_cons_self) disk
      rw [nestMounts]
      split
      · next disk₁ h₁ =>
          rw [h₁] at hturn
          have hlater := ih (fun other hother => hrest other (List.mem_cons_of_mem _ hother)) disk₁
            (fun place kind hkind => hturn.kept _ _ (hfirst _ _ hkind))
          refine (hturn.mono ?_).trans hlater
          rintro e kind - - ⟨howner, hnested⟩
          exact ⟨mount, disk.tree, howner, hfirst, fun place kind hkind =>
            hlater.kept _ _ (hturn.kept _ _ hkind), hnested⟩
      · next disk₁ message h₁ =>
          rw [h₁] at hturn
          refine hturn.mono ?_
          rintro e kind - - ⟨howner, hnested⟩
          exact ⟨mount, disk.tree, howner, hfirst, hturn.kept, hnested⟩

theorem grown_createNestedMountPoints (binds : List BindMount) (tmpfs : List (Text × Text))
    (disk : Disk Purpose) :
    Grown (NestedEntry fs (mountPoints binds tmpfs) disk.tree
      (createNestedMountPoints fs binds tmpfs disk).1.tree)
      disk (createNestedMountPoints fs binds tmpfs disk).1 :=
  grown_nestMounts (fun _ h => h) disk.tree disk fun _ _ h => h

end nested

/-! ### The sources of the host mounts -/

section sources

variable {fs}

/-- The sources that are missing are made, and then each one is there, unless it is Docker Desktop's
or the empty path. -/
theorem createMissingHostSources_spec (binds : List BindMount) (disk : Disk Purpose) :
    Grown (fun e _ => ∃ path, e.owner = .hostSource path) disk
      (createMissingHostSources fs binds disk).1 ∧
      ((createMissingHostSources fs binds disk).2 = .ok () → ∀ bind ∈ binds, ∀ path,
        bind.hostPath = some path →
        isSpecialDockerDesktopPath path = true ∨ path = [] ∨
          ∃ place, fs.canonicalize (createMissingHostSources fs binds disk).1.tree
            path = .ok place) := by
  induction binds generalizing disk with
  | nil => exact ⟨.refl disk, by simp⟩
  | cons bind binds ih =>
      have hnext := ih disk
      rw [createMissingHostSources]
      split
      · next hnone =>
          refine ⟨hnext.1, ?_⟩
          intro hok other hother path hpath
          rcases List.mem_cons.mp hother with rfl | hother
          · rw [hnone] at hpath
            cases hpath
          · exact hnext.2 hok other hother path hpath
      · next source hsource =>
          split
          · next hspecial =>
              refine ⟨hnext.1, ?_⟩
              intro hok other hother path hpath
              rcases List.mem_cons.mp hother with rfl | hother
              · rw [hsource] at hpath
                cases hpath
                exact Or.inl hspecial
              · exact hnext.2 hok other hother path hpath
          · split
            · next hexists =>
                refine ⟨hnext.1, ?_⟩
                intro hok other hother path hpath
                rcases List.mem_cons.mp hother with rfl | hother
                · rw [hsource] at hpath
                  cases hpath
                  obtain ⟨place, hplace⟩ := FileSystem.pathExists_iff.mp hexists
                  exact Or.inr (Or.inr ⟨place, FileSystem.canonicalize_kept hnext.1.kept hplace⟩)
                · exact hnext.2 hok other hother path hpath
            · have hmade : Grown (fun e _ => ∃ path, e.owner = .hostSource path) disk
                  (fs.createDirAll (.hostSource source) source disk).1 := by
                refine (FileSystem.grown_createDirAll source disk).mono ?_
                rintro e kind - - ⟨howner, -⟩
                exact ⟨source, howner⟩
              split
              · next disk₁ h₁ =>
                  rw [h₁] at hmade
                  have hlater := ih disk₁
                  refine ⟨hmade.trans hlater.1, ?_⟩
                  intro hok other hother path hpath
                  rcases List.mem_cons.mp hother with rfl | hother
                  · rw [hsource] at hpath
                    cases hpath
                    by_cases hempty : source = []
                    · exact Or.inr (Or.inl hempty)
                    · obtain ⟨place, hplace, -⟩ :=
                        FileSystem.isDir_iff.mp (FileSystem.isDir_createDirAll hempty h₁)
                      exact Or.inr (Or.inr ⟨place,
                        FileSystem.canonicalize_kept hlater.1.kept hplace⟩)
                  · exact hlater.2 hok other hother path hpath
              · next disk₁ e h₁ =>
                  rw [h₁] at hmade
                  exact ⟨hmade, fun h => by cases h⟩

/-- A source that is there, and the empty path, is a file in a tree exactly if it is one after what
else is made. -/
theorem ownSourceIsAFile_kept {first found last : FileTree} {mount : MountPoint}
    (hsource : ∀ source, mount.hostSource = some source →
      source = [] ∨ ∃ place, fs.canonicalize first source = .ok place)
    (hfound : first.Kept found) (hlast : found.Kept last) :
    OwnSourceIsAFile fs found mount ↔ OwnSourceIsAFile fs last mount := by
  have hempty : ∀ tree place, fs.canonicalize tree [] ≠ .ok place := by
    intro tree place h
    cases (FileSystem.canonicalize_eq_ok.mp h).1
  constructor
  · rintro ⟨source, place, hown, hplace, hkind⟩
    refine ⟨source, place, hown, FileSystem.canonicalize_kept hlast hplace, ?_⟩
    have hthere := FileSystem.follow_there (FileSystem.canonicalize_eq_ok.mp hplace).2
    obtain ⟨kind, hsome⟩ := Option.ne_none_iff_exists'.mp hthere
    rw [hlast _ _ hsome, ← hsome]
    exact hkind
  · rintro ⟨source, place, hown, hplace, hkind⟩
    rcases hsource source hown with rfl | ⟨place', hplace'⟩
    · exact absurd hplace (hempty last place)
    · have hmid := FileSystem.canonicalize_kept hfound hplace'
      have hsame := FileSystem.canonicalize_kept hlast hmid
      rw [hplace] at hsame
      cases hsame
      exact ⟨source, place, hown, hmid, fun hdir => hkind (hlast _ _ hdir)⟩

theorem mountPoints_hostSource {binds : List BindMount} {tmpfs : List (Text × Text)}
    {mount : MountPoint} (hmount : mount ∈ mountPoints binds tmpfs) {source : Path}
    (hsource : mount.hostSource = some source) : ∃ bind ∈ binds, bind.hostPath = some source := by
  unfold mountPoints at hmount
  obtain ⟨⟨container, hostSource⟩, hpair, rfl⟩ := List.mem_map.mp hmount
  dsimp only at hsource
  rcases List.mem_append.mp hpair with hpair | hpair
  · obtain ⟨bind, hbind, heq⟩ := List.mem_map.mp hpair
    cases heq
    exact ⟨bind, hbind, hsource⟩
  · obtain ⟨⟨name, options⟩, -, heq⟩ := List.mem_map.mp hpair
    cases heq
    cases hsource

end sources

/-- Each entry that `create_nested_mount_points` makes is inside the resolved source of the closest
enclosing mount, a directory of the host, and is a file exactly if it is the mount point itself and
the mount's own source is there and no directory; nothing that was there has changed.  Where the
missing sources have been made before, a source is at the end what it was in its mount's turn. -/
theorem nested_mount_points_stay_inside (fs : FileSystem) (binds : List BindMount)
    (tmpfs : List (Text × Text)) (disk : Disk Purpose) :
    Grown (NestedEntry fs (mountPoints binds tmpfs) disk.tree
      (createNestedMountPoints fs binds tmpfs disk).1.tree)
        disk (createNestedMountPoints fs binds tmpfs disk).1 ∧
      ∀ after, ensureHostVolumeDirectoriesExist fs binds tmpfs disk = (after, .ok ()) →
        Grown (fun e kind => (∃ path, e.owner = .hostSource path) ∨
            NestedEntry fs (mountPoints binds tmpfs) disk.tree after.tree e kind ∧
              ∀ mount found, e.owner = .mountPoint mount found →
                (OwnSourceIsAFile fs found mount ↔ OwnSourceIsAFile fs after.tree mount))
          disk after := by
  refine ⟨grown_createNestedMountPoints binds tmpfs disk, ?_⟩
  intro after h
  obtain ⟨hsources, hthere⟩ := @createMissingHostSources_spec fs binds disk
  unfold ensureHostVolumeDirectoriesExist at h
  split at h
  · next disk₁ h₁ =>
      rw [h₁] at hsources hthere
      have hnested := @grown_createNestedMountPoints fs binds tmpfs disk₁
      rw [h] at hnested
      refine (hsources.mono fun e kind _ _ he => Or.inl he).trans (hnested.mono ?_)
      rintro e kind - - ⟨mount, found, howner, hfirst, hlast, parent, source, root,
        above, below, hentry⟩
      refine Or.inr ⟨⟨mount, found, howner, ?_, hlast, parent, source, root, above, below, hentry⟩,
        ?_⟩
      · exact fun place kind hkind => hfirst _ _ (hsources.kept _ _ hkind)
      · rintro mount' found' howner'
        rw [howner] at howner'
        cases howner'
        refine ownSourceIsAFile_kept ?_ hfirst hlast
        intro own hown
        obtain ⟨bind, hbind, hpath⟩ := mountPoints_hostSource hentry.listed hown
        rcases hthere rfl bind hbind own hpath with hspecial | hplace
        · rw [hentry.plain own hown] at hspecial
          cases hspecial
        · exact hplace
  · cases h

/-- A directory `/s` with a link `l` to its own `d`, and a file `/f`. -/
def sourceTree : FileTree where
  entries :=
    [(nameOf ['s'], .dir [(nameOf ['d'], .dir []),
      (nameOf ['l'], .symlink [.normal (nameOf ['d'])])]),
    (nameOf ['f'], .file)]

/-- `/s` at `/c`, the file at `/c/l/x/y`, a volume at `/c/v`, and a directory that is missing at
`/o`. -/
def sourceBinds : List BindMount :=
  [⟨.host ['/', 's'], ['/', 'c'], none⟩,
    ⟨.host ['/', 'f'], ['/', 'c', '/', 'l', '/', 'x', '/', 'y'], none⟩,
    ⟨.volume ['v'], ['/', 'c', '/', 'v'], none⟩, ⟨.host ['/', 'm'], ['/', 'o'], none⟩]

def sourceDisk : Disk Purpose := ⟨sourceTree, fun _ => [], []⟩

def plainFileSystem : FileSystem := ⟨40, [], fun _ => true, fun _ _ => none⟩

theorem nested_mount_points_stay_inside_link :
    (ensureHostVolumeDirectoriesExist plainFileSystem sourceBinds [] sourceDisk).1.made.map
      Made.place =
        [[nameOf ['m']], [nameOf ['s'], nameOf ['d'], nameOf ['x']],
          [nameOf ['s'], nameOf ['d'], nameOf ['x'], nameOf ['y']], [nameOf ['s'], nameOf ['v']]] ∧
      Grown (fun e kind => (∃ path, e.owner = .hostSource path) ∨
          NestedEntry plainFileSystem (mountPoints sourceBinds []) sourceDisk.tree
              (ensureHostVolumeDirectoriesExist plainFileSystem sourceBinds [] sourceDisk).1.tree e
                kind ∧
            ∀ mount found, e.owner = .mountPoint mount found →
              (OwnSourceIsAFile plainFileSystem found mount ↔
                OwnSourceIsAFile plainFileSystem
                  (ensureHostVolumeDirectoriesExist plainFileSystem sourceBinds []
                    sourceDisk).1.tree mount))
        sourceDisk (ensureHostVolumeDirectoriesExist plainFileSystem sourceBinds [] sourceDisk).1 :=
  ⟨by decide +kernel,
    (nested_mount_points_stay_inside plainFileSystem sourceBinds [] sourceDisk).2 _
    (Prod.ext rfl (by decide +kernel))⟩

end Ratect
