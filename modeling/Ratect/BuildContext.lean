import Ratect.FileWrites
import Ratect.IgnoreFile
import Ratect.RealPaths

/-! # Build contexts

`check_build_files` (`container_spec.rs`), which reads the paths of a Dockerfile one component after
the other, and `build_context_tar` (`docker.rs`), which walks the build directory.  The walk finds
the regular files that no link stands before (`collect_eq`); a Dockerfile that passes the check is
one of these (`checkBuildFiles_ok`). -/

namespace Ratect.BuildContext

open Paths (Path Name Node Kind Component FileTree FileSystem IoError)
open Dockerignore (PatternMatcher Matcher readIgnoreFile)

variable (fs : FileSystem) (tree : FileTree)

/-! ### Reading a file system -/

/-- `Path::is_file`. -/
def isFile (path : Path) : Bool :=
  match fs.canonicalize tree path with
  | .ok place => tree.kind? place = some .file
  | .error _ => false

/-- `is_link` of `check_build_files`. -/
def isLink (path : Path) : Bool :=
  match fs.symlinkMetadata tree path with
  | .ok (.symlink _) => true
  | _ => false

/-- `std::fs::read_dir`, and the file type of each entry, which no link is followed for. -/
def readDir (path : Path) : Except IoError (List (Name × Kind)) :=
  match fs.canonicalize tree path with
  | .error e => .error e
  | .ok place =>
      match tree.node? place with
      | some (.dir entries) => .ok (entries.map fun e => (e.1, e.2.kind))
      | _ => .error (.other "Not a directory (os error 20)")

/-- A tree that a file system can hold: no directory has two entries of one name, and the names are
ones it admits. -/
structure Holds : Prop where
  nodup : ∀ place entries, tree.node? place = some (.dir entries) → (entries.map Prod.fst).Nodup
  admits : ∀ place entries, tree.node? place = some (.dir entries) → ∀ e ∈ entries,
    fs.admits e.1 = true ∧ '\x00' ∉ e.1.text

/-! ### Checking the Dockerfile -/

/-- `Path::strip_prefix`. -/
def stripPrefix (path base : Path) : Option Path :=
  if Paths.startsWith path base then some (path.drop base.length) else none

/-- The components of a path, with a `/` between two. -/
def joined (path : Path) : Text := ['/'].intercalate (path.map Component.toText)

/-- Where the Dockerfile is looked for. -/
def dockerfilePath (buildDirectory : Path) (dockerfile : Option Text) : Path :=
  Paths.clean (Paths.join (Paths.clean buildDirectory)
    (Paths.ofText (dockerfile.getD "Dockerfile".toList)))

/-- The first link that the components lead through, short of the path itself. -/
def linkBefore (path : Path) : Path → List Component → Option Path
  | _, [] => none
  | reached, component :: rest =>
      let reached := Paths.join reached [component]
      if reached ≠ path ∧ isLink fs tree reached = true then some reached
      else linkBefore path reached rest

/-- `check_build_files`. -/
def checkBuildFiles (buildDirectory : Path) (inBundle : Option String) (dockerfile : Option Text) :
    Except String Text :=
  let directory := inBundle.getD s!"'{String.ofList (printable (Paths.toText buildDirectory))}'"
  let shownDockerfile := String.ofList (printable (dockerfile.getD "Dockerfile".toList))
  let root := Paths.clean buildDirectory
  let path := dockerfilePath buildDirectory dockerfile
  if fs.pathExists tree buildDirectory = false then
    .error s!"build_directory {directory} doesn't exist"
  else if fs.isDir tree buildDirectory = false then
    .error s!"build_directory {directory} isn't a directory"
  else if fs.pathExists tree path = false then
    .error s!"dockerfile '{shownDockerfile}' doesn't exist in build_directory {directory}"
  else if isFile fs tree path = false then
    .error s!"dockerfile '{shownDockerfile}' isn't a regular file"
  else if isLink fs tree path = true then
    .error (s!"dockerfile '{shownDockerfile}' is a symbolic link, which Ratect's build context " ++
      "doesn't carry")
  else
    match stripPrefix path root with
    | none => .error s!"dockerfile '{shownDockerfile}' isn't inside build_directory {directory}"
    | some relative =>
        match linkBefore fs tree path root relative with
        | some reached =>
            let link :=
              String.ofList (printable (Paths.toText ((stripPrefix reached root).getD reached)))
            .error (s!"dockerfile '{shownDockerfile}' is reached through '{link}', a symbolic link, which " ++
              "Ratect's build context doesn't carry")
        | none => .ok (joined relative)

/-! ### The archive -/

/-- What making the archive fails at. -/
inductive Failure where
  | readDirectory (dir : Path) (error : IoError)
  | notUnderRoot (path : Path)
  | readIgnoreFile (path : Path) (error : String)
  | invalidPattern (path : Path) (error : Dockerignore.Error)
  | add (path : Path) (error : IoError)

/-- A file that the walk finds, by its path and by the part of it under the root. -/
structure Found where
  path : Path
  relative : Text

/-- What one entry of a directory adds. -/
def visit (recurse : Path → Option (Except Failure (List Found))) (root path : Path) :
    Kind → Option (Except Failure (List Found))
  | .dir => recurse path
  | .file =>
      match stripPrefix path root with
      | some relative => some (.ok [⟨path, joined relative⟩])
      | none => some (.error (.notUnderRoot path))
  | .symlink _ => some (.ok [])

/-- The entries of one directory, each looked at in turn. -/
def collectEntries (recurse : Path → Option (Except Failure (List Found))) (root dir : Path) :
    List (Name × Kind) → Option (Except Failure (List Found))
  | [] => some (.ok [])
  | (name, kind) :: rest =>
      match visit recurse root (dir ++ [.normal name]) kind with
      | none => none
      | some (.error e) => some (.error e)
      | some (.ok found) =>
          (collectEntries recurse root dir rest).map fun later => later.map (found ++ ·)

/-- `collect_build_context_entries`, so many directories deep at most; nothing where that is not
enough. -/
def collectBuildContextEntries (root : Path) : ℕ → Path → Option (Except Failure (List Found))
  | 0, _ => none
  | depth + 1, dir =>
      match readDir fs tree dir with
      | .error e => some (.error (.readDirectory dir e))
      | .ok entries => collectEntries (collectBuildContextEntries root depth) root dir entries

/-- An entry of the archive, and the regular file it is. -/
structure Entry where
  name : Text
  file : List Name
deriving DecidableEq

section archive

variable (foreign : Text → Option Matcher) (content : List Name → List (Except String Text))

/-- The matcher of the build directory's `.dockerignore`, and of no pattern where there is none. -/
def contextMatcher (buildDirectory : Path) : Except Failure PatternMatcher := do
  let dockerignorePath := Paths.join buildDirectory (Paths.ofText ".dockerignore".toList)
  let patterns ← match fs.canonicalize tree dockerignorePath with
    | .error _ => pure []
    | .ok place =>
        if tree.kind? place = some .file then
          (readIgnoreFile (content place)).mapError (.readIgnoreFile dockerignorePath)
        else pure []
  (PatternMatcher.new foreign patterns).mapError (.invalidPattern dockerignorePath)

/-- A found file is added whatever the patterns say, or for what they say. -/
def included (matcher : PatternMatcher) (dockerfile relative : Text) : Bool :=
  relative = dockerfile || relative = ".dockerignore".toList ||
    !matcher.matchesOrParentMatches relative

/-- One file opened and appended. -/
def addEntry (found : Found) : Except Failure Entry :=
  match fs.canonicalize tree found.path with
  | .ok place => .ok ⟨found.relative, place⟩
  | .error e => .error (.add found.path e)

/-- `build_context_tar`, by the entries of the archive. -/
def buildContextTar (depth : ℕ) (buildDirectory : Path) (dockerfile : Text) :
    Option (Except Failure (List Entry)) :=
  match contextMatcher fs tree foreign content buildDirectory with
  | .error e => some (.error e)
  | .ok matcher =>
      (collectBuildContextEntries fs tree buildDirectory depth buildDirectory).map fun found => do
        let entries ← found
        (entries.filter fun entry =>
          included matcher dockerfile entry.relative).mapM (addEntry fs tree)

end archive

/-! ### Paths and names -/

theorem stripPrefix_pathOf (names rel : List Name) :
    stripPrefix (pathOf (names ++ rel)) (pathOf names) = some (rel.map .normal) := by
  have hprefix : Paths.startsWith (pathOf (names ++ rel)) (pathOf names) = true :=
    startsWith_pathOf.mpr (List.prefix_append names rel)
  rw [stripPrefix, if_pos hprefix, pathOf_append, List.drop_left]

/-- The names are read back from where they are joined. -/
theorem ofText_joined (rel : List Name) :
    Paths.ofText (joined (rel.map .normal)) = rel.map .normal := by
  cases rel with
  | nil => rfl
  | cons name rel =>
      have hascending : Paths.Ascending ((name :: rel).map .normal) := ⟨0, name :: rel, rfl⟩
      have hread := hascending.ofText_toText (by simp)
      rw [hascending.toText] at hread
      exact hread

theorem joined_injective {rel rel' : List Name}
    (h : joined (rel.map .normal) = joined (rel'.map .normal)) : rel = rel' := by
  have hread := ofText_joined rel
  rw [h, ofText_joined] at hread
  exact (List.map_injective_iff.mpr normal_injective hread).symm

section places

variable {fs : FileSystem} {tree : FileTree} {names base : List Name}

/-- Names that lead to something that is there, and is no link, are walked. -/
theorem walk_below {rel : List Name} {kind : Kind} (hkind : tree.kind? (base ++ rel) = some kind)
    (hlink : ∀ target, kind ≠ .symlink target) :
    tree.walk base (rel.map .normal) = .arrived (base ++ rel) := by
  induction rel using List.reverseRecOn generalizing kind with
  | nil =>
      rw [List.append_nil]
      rfl
  | append_singleton rel name ih =>
      rw [← List.append_assoc] at hkind
      have hthere : tree.kind? (base ++ rel ++ [name]) ≠ none := by
        rw [hkind]
        exact Option.some_ne_none kind
      have hdir := FileTree.kind?_above hthere
      rw [List.map_append, FileTree.walk_append, ih hdir (fun target h => by cases h)]
      dsimp only
      rw [List.map_singleton, FileTree.walk, FileTree.step_normal, if_pos hdir,
        hkind, ← List.append_assoc]
      cases kind with
      | symlink target => exact absurd rfl (hlink target)
      | dir => rfl
      | file => rfl

/-- A name that is no link leads to its entry, or fails. -/
theorem walk_name {place : List Name} {name : Name}
    (hlink : ∀ target, tree.kind? (place ++ [name]) ≠ some (.symlink target)) :
    (∃ why, tree.walk place [.normal name] = .failed why) ∨
      tree.walk place [.normal name] = .arrived (place ++ [name]) := by
  rw [FileTree.walk, FileTree.step_normal]
  split_ifs
  · cases hkind : tree.kind? (place ++ [name]) with
    | none => exact Or.inl ⟨_, rfl⟩
    | some kind =>
        cases kind with
        | symlink target => exact absurd hkind (hlink target)
        | dir => exact Or.inr rfl
        | file => exact Or.inr rfl
  · exact Or.inl ⟨_, rfl⟩

/-- What is in a directory has one of its names. -/
theorem entry_of_kind {place : List Name} {name : Name} (h : tree.kind? (place ++ [name]) ≠ none) :
    ∃ entries node, tree.node? place = some (.dir entries) ∧ (name, node) ∈ entries := by
  obtain ⟨entries, hentries⟩ := FileTree.kind?_eq_dir.mp (FileTree.kind?_above h)
  rw [Ne, FileTree.kind?_eq_none, FileTree.node?_of_dir hentries] at h
  obtain ⟨node, hnode⟩ := Option.ne_none_iff_exists'.mp h
  obtain ⟨⟨name', node'⟩, hfind, rfl⟩ := Option.map_eq_some_iff.mp hnode
  have hname := List.find?_some hfind
  simp only [decide_eq_true_eq] at hname
  exact ⟨entries, node', hentries, hname ▸ List.mem_of_find?_eq_some hfind⟩

/-- The names of what is there hold no NUL. -/
theorem Holds.fit (hholds : Holds fs tree) {rel : List Name} (h : tree.kind? (base ++ rel) ≠ none) :
    ∀ name ∈ rel, '\x00' ∉ name.text := by
  induction rel using List.reverseRecOn with
  | nil => simp
  | append_singleton rel last ih =>
      rw [← List.append_assoc] at h
      obtain ⟨entries, node, hentries, hmem⟩ := entry_of_kind h
      have habove : tree.kind? (base ++ rel) ≠ none := by simp [FileTree.kind?_above h]
      intro name hname
      rcases List.mem_append.mp hname with hname | hname
      · exact ih habove name hname
      · rw [List.mem_singleton.mp hname]
        exact (hholds.admits _ entries hentries _ hmem).2

/-- Where names below a path lead that pass no link. -/
theorem canonicalize_below (hholds : Holds fs tree)
    (hbase : fs.canonicalize tree (pathOf names) = .ok base) {rel : List Name} {kind : Kind}
    (hkind : tree.kind? (base ++ rel) = some kind) (hlink : ∀ target, kind ≠ .symlink target) :
    fs.canonicalize tree (pathOf (names ++ rel)) = .ok (base ++ rel) := by
  obtain ⟨hfit, hfollow⟩ := FileSystem.canonicalize_eq_ok.mp hbase
  have hreal := FileSystem.follow_eq_ok.mp hfollow
  refine FileSystem.canonicalize_eq_ok.mpr ⟨?_, FileSystem.follow_eq_ok.mpr ?_⟩
  · unfold FileSystem.unfit at hfit ⊢
    have hne : ∀ names, pathOf names ≠ [] := fun names h => by cases h
    rw [if_neg (hne _)] at hfit ⊢
    split_ifs at hfit with hnul
    rw [if_neg]
    rw [pathOf_append, List.any_append, Bool.or_eq_true, not_or]
    refine ⟨hnul, ?_⟩
    rw [List.any_map, List.any_eq_true]
    rintro ⟨name, hname, hcontains⟩
    have hthere : tree.kind? (base ++ rel) ≠ none := by simp [hkind]
    exact hholds.fit hthere name hname (of_decide_eq_true hcontains)
  · rw [pathOf, FileSystem.locate_absolute] at hreal ⊢
    rw [List.map_append, ← List.cons_append]
    obtain ⟨links, hrest⟩ :=
      (FileTree.realpath_append fs.links [] (pathOf names) (rel.map .normal)).2 base hreal
    exact hrest.trans (FileTree.realpath_arrived (walk_below hkind hlink) links)

end places

/-! ### The walk -/

/-- The regular files below a node, by the names that lead to each; no link is passed. -/
def filesBelow : Node → List (List Name)
  | .file => [[]]
  | .symlink _ => []
  | .dir entries => entries.attach.flatMap fun e => (filesBelow e.1.2).map (e.1.1 :: ·)
decreasing_by
  have := List.sizeOf_lt_of_mem e.2
  obtain ⟨⟨name, node⟩, hmem⟩ := e
  simp only [Node.dir.sizeOf_spec, Prod.mk.sizeOf_spec] at *
  omega

theorem filesBelow_dir (entries : List (Name × Node)) :
    filesBelow (.dir entries) = entries.flatMap fun e => (filesBelow e.2).map (e.1 :: ·) := by
  rw [filesBelow, List.flatMap_subtype
    (g := fun e => (filesBelow e.2).map (e.1 :: ·)) (by intros; rfl),
    List.unattach_attach]

section walk

variable {fs : FileSystem} {tree : FileTree} {names base : List Name}

theorem Holds.node?_entry (hholds : Holds fs tree) {place : List Name}
    {entries : List (Name × Node)} (hentries : tree.node? place = some (.dir entries))
    {e : Name × Node} (he : e ∈ entries) : tree.node? (place ++ [e.1]) = some e.2 := by
  rw [FileTree.node?_of_dir hentries]
  have hthere : (entries.find? fun other => other.1 = e.1).isSome = true := by
    rw [List.find?_isSome]
    exact ⟨e, he, by simp⟩
  obtain ⟨other, hother⟩ := Option.isSome_iff_exists.mp hthere
  have hname : other.1 = e.1 := by simpa using List.find?_some hother
  have heq :=
    List.inj_on_of_nodup_map (hholds.nodup place entries hentries)
      (List.mem_of_find?_eq_some hother) he hname
  unfold FileTree.entry?
  rw [hother, heq]
  rfl

/-- Nothing is below what is no directory. -/
theorem kind?_below {place : List Name} {node : Node} (hnode : tree.node? place = some node)
    (hdir : node.kind ≠ .dir) (name : Name) (rest : List Name) :
    tree.kind? (place ++ name :: rest) ≠ some .file := by
  intro hfile
  have hbelow : tree.kind? (place ++ name :: rest) ≠ none := by
    rw [hfile]
    exact Option.some_ne_none _
  have hthere : tree.kind? (place ++ [name]) ≠ none :=
    FileTree.kind?_isPrefix hbelow ⟨rest, by simp⟩
  have hkind := FileTree.kind?_above hthere
  rw [FileTree.kind?, hnode] at hkind
  exact hdir (Option.some.inj hkind)

theorem mem_filesBelow (hholds : Holds fs tree) {rel place : List Name} {node : Node}
    (hnode : tree.node? place = some node) :
    rel ∈ filesBelow node ↔ tree.kind? (place ++ rel) = some .file := by
  induction rel generalizing place node with
  | nil =>
      rw [List.append_nil, FileTree.kind?, hnode]
      cases node with
      | file => simp [filesBelow, Node.kind]
      | symlink target => simp [filesBelow, Node.kind]
      | dir entries => simp [filesBelow_dir, Node.kind]
  | cons name rest ih =>
      cases node with
      | file =>
          refine iff_of_false (by simp [filesBelow])
            (kind?_below hnode (fun h => by cases h) name rest)
      | symlink target =>
          refine iff_of_false (by simp [filesBelow])
            (kind?_below hnode (fun h => by cases h) name rest)
      | dir entries =>
          rw [filesBelow_dir, List.append_cons]
          constructor
          · intro hmem
            obtain ⟨e, he, hrest⟩ := List.mem_flatMap.mp hmem
            obtain ⟨rest', hrest', heq⟩ := List.mem_map.mp hrest
            obtain ⟨rfl, rfl⟩ := List.cons.inj heq
            exact (ih (hholds.node?_entry hnode he)).mp hrest'
          · intro hfile
            have hbelow : tree.kind? (place ++ [name] ++ rest) ≠ none := by
              rw [hfile]
              exact Option.some_ne_none _
            have hthere : tree.kind? (place ++ [name]) ≠ none :=
              FileTree.kind?_isPrefix hbelow (List.prefix_append _ _)
            obtain ⟨entries', child, hentries', hmem⟩ := entry_of_kind hthere
            rw [hnode] at hentries'
            cases hentries'
            have hrest := (ih (hholds.node?_entry hnode hmem)).mpr hfile
            exact List.mem_flatMap.mpr ⟨(name, child), hmem, List.mem_map.mpr ⟨rest, hrest, rfl⟩⟩

theorem sizeOf_entry {entries : List (Name × Node)} {e : Name × Node} (he : e ∈ entries) :
    sizeOf e.2 < sizeOf (Node.dir entries) := by
  have hlist := List.sizeOf_lt_of_mem he
  obtain ⟨name, node⟩ := e
  simp only [Node.dir.sizeOf_spec, Prod.mk.sizeOf_spec] at *
  omega

theorem nodup_filesBelow (hholds : Holds fs tree) {place : List Name} {node : Node}
    (hnode : tree.node? place = some node) : (filesBelow node).Nodup := by
  induction hsize : sizeOf node using Nat.strong_induction_on generalizing place node with
  | _ size ih =>
      cases node with
      | file => simp [filesBelow]
      | symlink target => simp [filesBelow]
      | dir entries =>
          rw [filesBelow_dir, List.nodup_flatMap]
          constructor
          · intro e he
            have hchild := ih _ (hsize ▸ sizeOf_entry he) (hholds.node?_entry hnode he) rfl
            exact hchild.map (fun rest rest' h => (List.cons.inj h).2)
          · have hnames := List.pairwise_map.mp (hholds.nodup place entries hnode)
            refine hnames.imp ?_
            intro e e' hne rel hrel hrel'
            obtain ⟨rest, -, rfl⟩ := List.mem_map.mp hrel
            obtain ⟨rest', -, heq⟩ := List.mem_map.mp hrel'
            exact hne (List.cons.inj heq).1.symm

/-- What the walk finds for a file, by the names under the root. -/
def foundAt (names rel : List Name) : Found := ⟨pathOf (names ++ rel), joined (rel.map .normal)⟩

/-- The entries of a directory one after the other, where the directories among them are walked. -/
theorem collectEntries_eq {recurse : Path → Option (Except Failure (List Found))} {sub : List Name}
    {entries : List (Name × Node)}
    (hrecurse : ∀ e ∈ entries, e.2.kind = .dir → recurse (pathOf (names ++ (sub ++ [e.1]))) =
      some (.ok ((filesBelow e.2).map fun rel => foundAt names (sub ++ [e.1] ++ rel)))) :
    collectEntries recurse (pathOf names) (pathOf (names ++ sub))
      (entries.map fun e => (e.1, e.2.kind)) =
      some (.ok ((filesBelow (.dir entries)).map fun rel => foundAt names (sub ++ rel))) := by
  rw [filesBelow_dir]
  induction entries with
  | nil => rfl
  | cons e entries ih =>
      have hlater := ih fun other hother => hrecurse other (List.mem_cons_of_mem _ hother)
      have hpath : pathOf (names ++ sub) ++ [.normal e.1] = pathOf (names ++ (sub ++ [e.1])) := by
        rw [← List.append_assoc, pathOf_append (names ++ sub)]
        rfl
      have hjoin : ∀ rels : List (List Name),
          (rels.map (e.1 :: ·)).map (fun rel => foundAt names (sub ++ rel)) =
            rels.map fun rel => foundAt names (sub ++ [e.1] ++ rel) := by
        intro rels
        rw [List.map_map]
        refine List.map_congr_left fun rel _ => ?_
        simp
      rw [List.map_cons, List.flatMap_cons, List.map_append, hjoin, collectEntries, hpath]
      have hvisit : visit recurse (pathOf names) (pathOf (names ++ (sub ++ [e.1]))) e.2.kind =
          some (.ok ((filesBelow e.2).map fun rel => foundAt names (sub ++ [e.1] ++ rel))) := by
        cases hkind : e.2.kind with
        | dir => exact hrecurse e (List.mem_cons_self ..) hkind
        | file =>
            have hfile : e.2 = .file := by
              cases hnode : e.2 <;> simp_all [Node.kind]
            rw [visit, stripPrefix_pathOf, hfile, filesBelow]
            simp [foundAt]
        | symlink target =>
            have hlink : e.2 = .symlink target := by
              cases hnode : e.2 <;> simp_all [Node.kind]
            rw [visit, hlink, filesBelow]
            rfl
      rw [hvisit]
      dsimp only
      rw [hlater]
      rfl

/-- The walk of a directory under the root finds the regular files below it, if it may go deep
enough. -/
theorem collect_eq (hholds : Holds fs tree) (hbase : fs.canonicalize tree (pathOf names) = .ok base)
    {depth : ℕ} {sub : List Name} {entries : List (Name × Node)}
    (hentries : tree.node? (base ++ sub) = some (.dir entries))
    (hdepth : sizeOf (Node.dir entries) ≤ depth) :
    collectBuildContextEntries fs tree (pathOf names) depth (pathOf (names ++ sub)) =
      some (.ok ((filesBelow (.dir entries)).map fun rel => foundAt names (sub ++ rel))) := by
  induction depth generalizing sub entries with
  | zero => simp [Node.dir.sizeOf_spec] at hdepth
  | succ depth ih =>
      have hkind := FileTree.kind?_eq_dir.mpr ⟨entries, hentries⟩
      have hread : readDir fs tree (pathOf (names ++ sub)) =
          .ok (entries.map fun e => (e.1, e.2.kind)) := by
        unfold readDir
        rw [canonicalize_below hholds hbase hkind (fun target h => by cases h)]
        dsimp only
        rw [hentries]
      rw [collectBuildContextEntries, hread]
      refine collectEntries_eq fun e he hdir => ?_
      obtain ⟨entries', hchild⟩ := FileTree.kind_eq_dir.mp hdir
      have hnode := hholds.node?_entry hentries he
      rw [List.append_assoc, hchild] at hnode
      have hsmaller := sizeOf_entry he
      rw [hchild] at hsmaller ⊢
      exact ih hnode (by omega)

end walk

/-! ### The check -/

section check

variable {fs : FileSystem} {tree : FileTree} {names base : List Name}

theorem isFile_iff {path : Path} : isFile fs tree path = true ↔
    ∃ place, fs.canonicalize tree path = .ok place ∧ tree.kind? place = some .file := by
  unfold isFile
  cases fs.canonicalize tree path with
  | ok place => simp
  | error e => simp

/-- What the check accepts. -/
theorem checkBuildFiles_eq_ok {buildDirectory : Path} {inBundle : Option String}
    {dockerfile : Option Text} {d : Text}
    (h : checkBuildFiles fs tree buildDirectory inBundle dockerfile = .ok d) :
    fs.isDir tree buildDirectory = true ∧
      isFile fs tree (dockerfilePath buildDirectory dockerfile) = true ∧
      isLink fs tree (dockerfilePath buildDirectory dockerfile) = false ∧
      ∃ relative,
        stripPrefix (dockerfilePath buildDirectory dockerfile)
          (Paths.clean buildDirectory) = some relative ∧
        linkBefore fs tree (dockerfilePath buildDirectory dockerfile)
          (Paths.clean buildDirectory) relative = none ∧
        d = joined relative := by
  unfold checkBuildFiles at h
  dsimp only at h
  split_ifs at h with hexists hdir hthere hfile hlink
  refine ⟨Bool.not_eq_false _ ▸ hdir, Bool.not_eq_false _ ▸ hfile, Bool.eq_false_iff.mpr hlink, ?_⟩
  split at h
  · cases h
  · next relative hrelative =>
      split at h
      · cases h
      · next hbefore =>
          cases h
          exact ⟨relative, hrelative, hbefore, rfl⟩

/-- Where a path is found, each path that it starts with is fit for a call. -/
theorem unfit_of_append {names rel : List Name}
    (h : FileSystem.unfit (pathOf (names ++ rel)) = none) :
    FileSystem.unfit (pathOf names) = none := by
  unfold FileSystem.unfit at h ⊢
  have hne : ∀ names, pathOf names ≠ [] := fun names h => by cases h
  rw [if_neg (hne _)] at h ⊢
  split_ifs at h with hnul
  rw [if_neg]
  rw [pathOf_append, List.any_append, Bool.or_eq_true, not_or] at hnul
  exact hnul.1

/-- A link is seen where it stands. -/
theorem isLink_of_kind (hholds : Holds fs tree) {place : List Name} {name : Name} {target : Path}
    (hplace : fs.follow tree (pathOf names) = .ok place)
    (hfit : FileSystem.unfit (pathOf (names ++ [name])) = none)
    (hlink : tree.kind? (place ++ [name]) = some (.symlink target)) :
    isLink fs tree (pathOf (names ++ [name])) = true := by
  have hthere : tree.kind? (place ++ [name]) ≠ none := by
    rw [hlink]
    exact Option.some_ne_none _
  obtain ⟨entries, node, hentries, hmem⟩ := entry_of_kind hthere
  have hadmits := (hholds.admits place entries hentries _ hmem).1
  have hlast : (pathOf (names ++ [name])).getLast? = some (.normal name) := by
    rw [pathOf_append]
    simp
  have hinit : (pathOf (names ++ [name])).dropLast = pathOf names := by
    rw [pathOf_append]
    simp
  have hentry : fs.entryPlace tree (pathOf (names ++ [name])) = .ok (place ++ [name]) := by
    unfold FileSystem.entryPlace
    rw [hfit]
    dsimp only
    rw [hlast]
    dsimp only
    rw [hinit, hplace]
    dsimp only
    rw [if_neg (not_not.mpr (FileTree.kind?_above hthere)), hadmits]
    rfl
  unfold isLink FileSystem.symlinkMetadata
  rw [hentry]
  dsimp only
  rw [hlink]

/-- A path below a directory that passes no link leads where its names do. -/
theorem place_of_linkless (hholds : Holds fs tree)
    (hbase : fs.canonicalize tree (pathOf names) = .ok base) {rel place : List Name}
    (hlinks : ∀ above, above <+: rel → above ≠ [] →
      isLink fs tree (pathOf (names ++ above)) = false)
    (hplace : fs.canonicalize tree (pathOf (names ++ rel)) = .ok place) : place = base ++ rel := by
  induction rel using List.reverseRecOn generalizing place with
  | nil =>
      rw [List.append_nil, hbase] at hplace
      rw [List.append_nil]
      exact (Except.ok.inj hplace).symm
  | append_singleton rel name ih =>
      obtain ⟨hfit, hfollow⟩ := FileSystem.canonicalize_eq_ok.mp hplace
      rw [← List.append_assoc] at hfit hfollow
      have hreal := FileSystem.follow_eq_ok.mp hfollow
      rw [pathOf, FileSystem.locate_absolute, ← pathOf, pathOf_append] at hreal
      obtain ⟨hfails, hgoes⟩ :=
        FileTree.realpath_append fs.links [] (pathOf (names ++ rel)) ([name].map .normal)
      cases habove : tree.realpath fs.links [] (pathOf (names ++ rel)) with
      | error why =>
          rw [hfails why habove] at hreal
          cases hreal
      | ok mid =>
          have hmid : fs.follow tree (pathOf (names ++ rel)) = .ok mid :=
            FileSystem.follow_eq_ok.mpr habove
          have hinside : ∀ above,
              above <+: rel → above ≠ [] → isLink fs tree (pathOf (names ++ above)) = false :=
            fun above h => hlinks above (h.trans (List.prefix_append _ _))
          obtain rfl := ih hinside (FileSystem.canonicalize_eq_ok.mpr ⟨unfit_of_append hfit, hmid⟩)
          obtain ⟨links, hrest⟩ := hgoes _ habove
          have hnolink : ∀ target, tree.kind? (base ++ rel ++ [name]) ≠ some (.symlink target) := by
            intro target hlink
            have hseen := isLink_of_kind hholds hmid hfit hlink
            rw [List.append_assoc, hlinks _ (List.prefix_refl _) (by simp)] at hseen
            cases hseen
          rw [hrest, List.map_singleton] at hreal
          rw [← List.append_assoc]
          rcases walk_name hnolink with ⟨why, hwalk⟩ | hwalk
          · rw [FileTree.realpath_failed hwalk] at hreal
            cases hreal
          · rw [FileTree.realpath_arrived hwalk] at hreal
            exact (Except.ok.inj hreal).symm

/-- No link is seen on the way to a path that the loop passes. -/
theorem linkBefore_eq_none {path : Path} {start rel : List Name}
    (h : linkBefore fs tree path (pathOf start) (rel.map .normal) = none)
    (hpath : isLink fs tree path = false) {above : List Name} (habove : above <+: rel)
    (hne : above ≠ []) : isLink fs tree (pathOf (start ++ above)) = false := by
  induction rel generalizing start above with
  | nil => exact absurd (List.prefix_nil.mp habove) hne
  | cons name rel ih =>
      have hreached : Paths.join (pathOf start) [.normal name] = pathOf (start ++ [name]) := by
        rw [(rooted_pathOf start).join, pathOf_append]
        rfl
      rw [List.map_cons, linkBefore, hreached] at h
      split_ifs at h with hlink
      obtain ⟨more, hmore⟩ := habove
      cases above with
      | nil => exact absurd rfl hne
      | cons first above =>
          obtain ⟨rfl, rfl⟩ := List.cons.inj hmore
          by_cases hend : above = []
          · rw [hend]
            by_cases hsame : pathOf (start ++ [first]) = path
            · rw [hsame]
              exact hpath
            · exact Bool.eq_false_iff.mpr fun hseen => hlink ⟨hsame, hseen⟩
          · rw [List.append_cons]
            exact ih h (List.prefix_append above more) hend

theorem rooted_dockerfilePath (names : List Name) (dockerfile : Option Text) :
    ∃ full, dockerfilePath (pathOf names) dockerfile = pathOf full := by
  have hroot : Paths.Rooted (Paths.clean (pathOf names)) := by
    rw [(rooted_pathOf names).clean]
    exact rooted_pathOf names
  have hproper := hroot.proper.join (Paths.proper_ofText (dockerfile.getD "Dockerfile".toList))
  exact hproper.clean_rooted (Paths.isAbsolute_join hroot.isAbsolute)

/-- A Dockerfile that passes the check is a regular file below the build directory that no link
stands before, and is named by the way to it. -/
theorem checkBuildFiles_ok (hholds : Holds fs tree) {inBundle : Option String}
    {dockerfile : Option Text} {d : Text}
    (h : checkBuildFiles fs tree (pathOf names) inBundle dockerfile = .ok d) :
    ∃ base rel, fs.canonicalize tree (pathOf names) = .ok base ∧ tree.kind? base = some .dir ∧
      fs.canonicalize tree (dockerfilePath (pathOf names) dockerfile) = .ok (base ++ rel) ∧
      tree.kind? (base ++ rel) = some .file ∧ d = joined (rel.map .normal) := by
  obtain ⟨hdir, hfile, hlink, relative, hrelative, hbefore, rfl⟩ := checkBuildFiles_eq_ok h
  obtain ⟨base, hbase, hkind⟩ := FileSystem.isDir_iff.mp hdir
  obtain ⟨place, hplace, hregular⟩ := isFile_iff.mp hfile
  obtain ⟨full, hfull⟩ := rooted_dockerfilePath names dockerfile
  rw [(rooted_pathOf names).clean] at hrelative hbefore
  have hstarts : Paths.startsWith (pathOf full) (pathOf names) = true := by
    rw [stripPrefix, hfull] at hrelative
    split_ifs at hrelative with hstarts
    exact hstarts
  obtain ⟨rel, rfl⟩ := startsWith_pathOf.mp hstarts
  rw [hfull, stripPrefix_pathOf] at hrelative
  cases hrelative
  rw [hfull] at hplace hbefore hlink ⊢
  have hlinks : ∀ above,
      above <+: rel → above ≠ [] → isLink fs tree (pathOf (names ++ above)) = false :=
    fun above habove hne => linkBefore_eq_none hbefore hlink habove hne
  obtain rfl := place_of_linkless hholds hbase hlinks hplace
  exact ⟨base, rel, hbase, hkind, hplace, hregular, rfl⟩

end check

/-! ### What the archive holds -/

section contents

variable {fs : FileSystem} {tree : FileTree} {names base : List Name}
    {foreign : Text → Option Matcher} {content : List Name → List (Except String Text)}
    {matcher : PatternMatcher}

theorem included_iff {dockerfile relative : Text} : included matcher dockerfile relative = true ↔
    relative = dockerfile ∨ relative = ".dockerignore".toList ∨
      matcher.matchesOrParentMatches relative = false := by
  unfold included
  rw [Bool.or_eq_true, Bool.or_eq_true, decide_eq_true_eq, decide_eq_true_eq,
    Bool.not_eq_true', or_assoc]

/-- Where no two members of a list share a key, one alone has the key that it has. -/
theorem filter_key {α κ : Type} [DecidableEq κ] {key : α → κ} {l : List α} (h : (l.map key).Nodup)
    {a : α} (ha : a ∈ l) : l.filter (fun b => key b = key a) = [a] := by
  obtain ⟨before, after, rfl⟩ := List.append_of_mem ha
  rw [List.map_append, List.map_cons] at h
  have hother := (List.nodup_middle.mp h).notMem
  rw [List.filter_append, List.filter_cons_of_pos (by simp)]
  have hnone : ∀ part : List α,
      part ⊆ before ++ after → part.filter (fun b => key b = key a) = [] := by
    intro part hpart
    rw [List.filter_eq_nil_iff]
    intro b hb hkey
    refine hother ?_
    rw [← List.map_append, ← of_decide_eq_true hkey]
    exact List.mem_map_of_mem (hpart hb)
  rw [hnone before (List.subset_append_left _ _), hnone after (List.subset_append_right _ _)]
  rfl

/-- The entry of a file, by the names that lead to it from the build directory. -/
def entryAt (base rel : List Name) : Entry := ⟨joined (rel.map .normal), base ++ rel⟩

/-- The entries for the files below the build directory that are included. -/
def archiveOf (matcher : PatternMatcher) (dockerfile : Text) (base : List Name)
    (entries : List (Name × Node)) : List Entry :=
  ((filesBelow (.dir entries)).filter fun rel =>
    included matcher dockerfile (joined (rel.map .normal))).map (entryAt base)

/-- The archive is made, if the walk may go as deep as the tree. -/
theorem buildContextTar_eq (hholds : Holds fs tree)
    (hmatcher : contextMatcher fs tree foreign content (pathOf names) = .ok matcher)
    (hbase : fs.canonicalize tree (pathOf names) = .ok base) {entries : List (Name × Node)}
    (hentries : tree.node? base = some (.dir entries)) {depth : ℕ}
    (hdepth : sizeOf (Node.dir entries) ≤ depth) (dockerfile : Text) :
    buildContextTar fs tree foreign content depth (pathOf names) dockerfile =
      some (.ok (archiveOf matcher dockerfile base entries)) := by
  have hroot : tree.node? (base ++ []) = some (.dir entries) := by
    rw [List.append_nil]
    exact hentries
  have hwalk := collect_eq hholds hbase hroot hdepth
  rw [List.append_nil] at hwalk
  have hadd : (((filesBelow (.dir entries)).map fun rel => foundAt names ([] ++ rel)).filter
      fun found => included matcher dockerfile found.relative).mapM (addEntry fs tree) =
        .ok (archiveOf matcher dockerfile base entries) := by
    rw [Except.mapM_eq_ok, List.filter_map, archiveOf, List.forall₂_map_left_iff,
      List.forall₂_map_right_iff]
    refine List.forall₂_same.mpr fun rel hrel => ?_
    have hfile := (mem_filesBelow hholds hentries).mp (List.mem_of_mem_filter hrel)
    unfold addEntry foundAt
    rw [List.nil_append, canonicalize_below hholds hbase hfile (fun target h => by cases h)]
    rfl
  unfold buildContextTar
  rw [hmatcher]
  dsimp only
  rw [hwalk, Option.map_some]
  exact congrArg some hadd

theorem mem_archiveOf (hholds : Holds fs tree) {entries : List (Name × Node)}
    (hentries : tree.node? base = some (.dir entries)) {dockerfile : Text} {entry : Entry} :
    entry ∈ archiveOf matcher dockerfile base entries ↔ ∃ rel, entry = entryAt base rel ∧
      tree.kind? (base ++ rel) = some .file ∧
        included matcher dockerfile (joined (rel.map .normal)) = true := by
  unfold archiveOf
  rw [List.mem_map]
  constructor
  · rintro ⟨rel, hrel, rfl⟩
    obtain ⟨hfile, hincluded⟩ := List.mem_filter.mp hrel
    exact ⟨rel, rfl, (mem_filesBelow hholds hentries).mp hfile, hincluded⟩
  · rintro ⟨rel, rfl, hfile, hincluded⟩
    exact ⟨rel, List.mem_filter.mpr ⟨(mem_filesBelow hholds hentries).mpr hfile, hincluded⟩, rfl⟩

theorem nodup_archiveOf (hholds : Holds fs tree) {entries : List (Name × Node)}
    (hentries : tree.node? base = some (.dir entries)) (dockerfile : Text) :
    ((archiveOf matcher dockerfile base entries).map Entry.name).Nodup := by
  unfold archiveOf
  rw [List.map_map]
  exact ((nodup_filesBelow hholds hentries).filter _).map fun rel rel' h => joined_injective h

/-- What the check accepts is what the archive carries.  The archive is made, for the patterns of a
`.dockerignore` that are accepted; it has one entry of the Dockerfile's name, which is the file that
was looked at, and no two entries of one name; and any other regular file is in it if no link stands
between the build directory and it, and it is the `.dockerignore` or is not matched. -/
theorem checked_dockerfile_is_carried (hholds : Holds fs tree) {inBundle : Option String}
    {dockerfile : Option Text} {d : Text}
    (hcheck : checkBuildFiles fs tree (pathOf names) inBundle dockerfile = .ok d)
    (hmatcher : contextMatcher fs tree foreign content (pathOf names) = .ok matcher) :
    ∃ base looked archive deep,
      fs.canonicalize tree (pathOf names) = .ok base ∧
      fs.canonicalize tree (dockerfilePath (pathOf names) dockerfile) = .ok looked ∧
      tree.kind? looked = some .file ∧
      (∀ depth, deep ≤ depth →
        buildContextTar fs tree foreign content depth (pathOf names) d = some (.ok archive)) ∧
      (archive.filter fun entry => entry.name = d) = [⟨d, looked⟩] ∧
      (archive.map Entry.name).Nodup ∧
      (∀ entry ∈ archive, ∃ rel, entry = entryAt base rel ∧ tree.kind? (base ++ rel) = some .file) ∧
      ∀ file, tree.kind? file = some .file → file ≠ looked →
        ((∃ entry ∈ archive, entry.file = file) ↔ ∃ rel, file = base ++ rel ∧
          (joined (rel.map .normal) = ".dockerignore".toList ∨
            matcher.matchesOrParentMatches (joined (rel.map .normal)) = false)) := by
  obtain ⟨base, way, hbase, hdir, hlooked, hfile, rfl⟩ := checkBuildFiles_ok hholds hcheck
  obtain ⟨entries, hentries⟩ := FileTree.kind?_eq_dir.mp hdir
  have hnodup : ((archiveOf matcher (joined (way.map .normal)) base entries).map
      Entry.name).Nodup :=
    nodup_archiveOf hholds hentries _
  refine ⟨base, base ++ way, archiveOf matcher (joined (way.map .normal)) base entries,
    sizeOf (Node.dir entries), hbase,
    hlooked, hfile,
    fun depth hdepth => buildContextTar_eq hholds hmatcher hbase hentries hdepth _, ?_,
      hnodup, ?_, ?_⟩
  · have hmem : entryAt base way ∈ archiveOf matcher (joined (way.map .normal)) base entries :=
      (mem_archiveOf hholds hentries).mpr ⟨way, rfl, hfile, included_iff.mpr (Or.inl rfl)⟩
    exact filter_key hnodup hmem
  · intro entry hentry
    obtain ⟨rel, hrel, hregular, -⟩ := (mem_archiveOf hholds hentries).mp hentry
    exact ⟨rel, hrel, hregular⟩
  · intro file hregular hother
    constructor
    · rintro ⟨entry, hentry, rfl⟩
      obtain ⟨rel, rfl, -, hincluded⟩ := (mem_archiveOf hholds hentries).mp hentry
      have hname : joined (rel.map .normal) ≠ joined (way.map .normal) :=
        fun h => hother (congrArg (base ++ ·) (joined_injective h))
      exact ⟨rel, rfl, (included_iff.mp hincluded).resolve_left hname⟩
    · rintro ⟨rel, rfl, hverdict⟩
      have hincluded : included matcher (joined (way.map .normal))
          (joined (rel.map .normal)) = true :=
        included_iff.mpr (Or.inr hverdict)
      exact ⟨entryAt base rel,
        (mem_archiveOf hholds hentries).mpr ⟨rel, rfl, hregular, hincluded⟩, rfl⟩

end contents

/-! ### A context with an ignored directory -/

/-- A tree whose nodes have a property that gives each directory fit names, and its entries the
property. -/
theorem Holds.of_forall {fs : FileSystem} {tree : FileTree} {P : Node → Prop}
    (hroot : P (.dir tree.entries))
    (hdir : ∀ entries, P (.dir entries) → (entries.map Prod.fst).Nodup ∧
      ∀ e ∈ entries, (fs.admits e.1 = true ∧ '\x00' ∉ e.1.text) ∧ P e.2) : Holds fs tree := by
  have hnodes : ∀ place node, tree.node? place = some node → P node := by
    intro place
    induction place using List.reverseRecOn with
    | nil =>
        intro node hnode
        cases hnode
        exact hroot
    | append_singleton place name ih =>
        intro node hnode
        have hthere : tree.kind? (place ++ [name]) ≠ none := by simp [FileTree.kind?, hnode]
        obtain ⟨entries, hentries⟩ := FileTree.kind?_eq_dir.mp (FileTree.kind?_above hthere)
        rw [FileTree.node?_of_dir hentries] at hnode
        obtain ⟨e, hfind, rfl⟩ := Option.map_eq_some_iff.mp hnode
        exact ((hdir entries (ih _ hentries)).2 e (List.mem_of_find?_eq_some hfind)).2
  constructor
  · intro place entries hentries
    exact (hdir entries (hnodes place _ hentries)).1
  · intro place entries hentries e he
    exact ((hdir entries (hnodes place _ hentries)).2 e he).1

/-- A file system that holds names of any length. -/
def anyNames : FileSystem where
  links := 40
  cwd := []
  admits _ := true
  refuses _ _ := none

/-- A directory with a page in it. -/
def docs : Node := .dir [(nameOf "guide.md".toList (by decide +kernel), .file)]

/-- A build directory with a Dockerfile, a `.dockerignore` and the pages it names. -/
def project : Node := .dir [
  (nameOf "Dockerfile".toList (by decide +kernel), .file),
  (nameOf ".dockerignore".toList (by decide +kernel), .file),
  (nameOf "docs".toList, docs)]

theorem isName_project : Paths.IsName ['p'] := by decide

/-- The whole tree. -/
def disk : FileTree where
  entries := [(nameOf ['p'] isName_project, project)]

theorem disk_holds : Holds anyNames disk := by
  refine Holds.of_forall (P := fun node =>
    node = .dir disk.entries ∨ node = project ∨ node = docs ∨ node = .file)
    (Or.inl rfl) ?_
  rintro entries (h | h | h | h)
  · cases h
    exact ⟨by decide, by simp [disk, anyNames, nameOf]⟩
  · cases h
    exact ⟨by decide +kernel, by simp [anyNames, nameOf]⟩
  · cases h
    exact ⟨by decide +kernel, by simp [anyNames, nameOf]⟩
  · cases h

/-- The Dockerfile is in the archive, and the page is not. -/
theorem checked_dockerfile_is_carried_docs : ∃ archive deep,
    (∀ depth, deep ≤ depth →
      buildContextTar anyNames disk (fun _ => none) (fun _ => [.ok "docs".toList]) depth
      (pathOf [nameOf ['p']]) "Dockerfile".toList = some (.ok archive)) ∧
    (archive.filter fun entry => entry.name = "Dockerfile".toList) =
      [⟨"Dockerfile".toList, [nameOf ['p'], nameOf "Dockerfile".toList (by decide +kernel)]⟩] ∧
    ¬ ∃ entry ∈ archive,
      entry.file = [nameOf ['p'], nameOf "docs".toList,
        nameOf "guide.md".toList (by decide +kernel)] := by
  have hcheck : checkBuildFiles anyNames disk (pathOf [nameOf ['p']]) none none =
      .ok "Dockerfile".toList := by
    decide +kernel
  have hrun : (contextMatcher anyNames disk (fun _ => none) (fun _ => [.ok "docs".toList])
      (pathOf [nameOf ['p']])).passes
      (fun matcher => matcher.matchesOrParentMatches "docs/guide.md".toList) = true := by
    decide +kernel
  obtain ⟨matcher, hmatcher, hverdict⟩ := Except.exists_of_passes hrun
  obtain ⟨base, looked, archive, deep, hbase, hlooked, -, harchive, hdockerfile, -, -, hothers⟩ :=
    checked_dockerfile_is_carried disk_holds hcheck hmatcher
  have hp : anyNames.canonicalize disk (pathOf [nameOf ['p']]) = .ok [nameOf ['p']] := by
    decide +kernel
  have hthere : anyNames.canonicalize disk (dockerfilePath (pathOf [nameOf ['p']]) none) =
      .ok [nameOf ['p'], nameOf "Dockerfile".toList (by decide +kernel)] := by
    decide +kernel
  obtain rfl := Except.ok.inj (hp.symm.trans hbase)
  obtain rfl := Except.ok.inj (hthere.symm.trans hlooked)
  refine ⟨archive, deep, harchive, hdockerfile, ?_⟩
  intro hentry
  obtain ⟨rel, hrel, hincluded⟩ := (hothers _ (by decide +kernel) (by decide +kernel)).mp hentry
  obtain rfl := (List.cons.inj hrel).2.symm
  rcases hincluded with hname | hkept
  · exact absurd hname (by decide +kernel)
  · have hjoined : joined (([nameOf "docs".toList,
      nameOf "guide.md".toList (by decide +kernel)] : List Name).map .normal) =
        "docs/guide.md".toList := by
      decide +kernel
    rw [hjoined, hverdict] at hkept
    cases hkept

end Ratect.BuildContext
