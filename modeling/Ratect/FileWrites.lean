import Ratect.FileTree

/-! # Entries made in a file system

Directories and empty files are made in a tree as `mkdir`, `open` with `O_CREAT | O_EXCL` and
`create_dir_all` make them: the links above the last component are followed, the last component is
not, and an entry that is there is never touched.  A `Disk` records for each entry that is made who
asked for it.

`Grown` says what a run of such calls has done: every entry there was is still there and is what it
was, no link is new, and whatever is new is recorded and has a property.  It holds of one call
(`grown_make`), of `create_dir_all` (`grown_createDirAll`) and, being reflexive and transitive, of
any run.  Where a path leads does not change in it (`Grown.resolves_iff`), and what was found is
found again (`Grown.canonicalize`). -/

namespace Paths

/-- What an entry is. -/
inductive Kind where
  | dir
  | file
  | symlink (target : Path)
deriving DecidableEq

def Node.kind : Node → Kind
  | dir _ => .dir
  | file => .file
  | symlink target => .symlink target

/-- What can be made. -/
inductive Fresh where
  | dir
  | file
deriving DecidableEq, Repr

def Fresh.node : Fresh → Node
  | dir => .dir []
  | file => .file

def Fresh.kind : Fresh → Kind
  | dir => .dir
  | file => .file

/-- `std::io::ErrorKind`, as far as it is asked for. -/
inductive IoError where
  | notFound
  | alreadyExists
  | permissionDenied
  | other (message : String)
deriving DecidableEq, Repr

namespace FileTree

/-- What is at a place. -/
def kind? (tree : FileTree) (place : List Name) : Option Kind := (tree.node? place).map Node.kind

/-- A directory with its entries changed; nothing else has any. -/
def intoDir (change : List (Name × Node) → List (Name × Node)) : Node → Node
  | .dir entries => .dir (change entries)
  | node => node

/-- An entry put at the end of the directory it is in. -/
def put (node : Node) : List Name → List (Name × Node) → List (Name × Node)
  | [], entries => entries
  | [name], entries => entries ++ [(name, node)]
  | above :: rest, entries =>
      entries.map fun e => (e.1, if e.1 = above then intoDir (put node rest) e.2 else e.2)

end FileTree

/-- What is fixed about a file system: how many links a path may pass, the directory relative paths
start from, the names that are not too long, and what is answered instead of making an entry at a
place. -/
structure FileSystem where
  links : ℕ
  cwd : List Name
  admits : Name → Bool
  refuses : FileTree → List Name → Option IoError

/-- An entry that was made, and who asked for it. -/
structure Made (α : Type) where
  owner : α
  place : List Name

/-- The entries, the contents of the regular files, and what has been made. -/
structure Disk (α : Type) where
  tree : FileTree
  content : List Name → List UInt8
  made : List (Made α)

/-- An entry is made at a place. -/
def Disk.add {α : Type} (disk : Disk α) (owner : α) (fresh : Fresh)
    (place : List Name) : Disk α where
  tree := ⟨FileTree.put fresh.node place disk.tree.entries⟩
  content := if fresh = .file then Function.update disk.content place [] else disk.content
  made := disk.made ++ [⟨owner, place⟩]

/-- A name with a NUL byte. -/
def Component.hasNul : Component → Bool
  | .normal name => decide ('\x00' ∈ name.text)
  | _ => false

namespace FileSystem

variable (fs : FileSystem)

/-- A path from the root: a relative one starts from the current directory. -/
def locate (path : Path) : Path := join (.root :: fs.cwd.map .normal) path

section reads

variable (tree : FileTree)

/-- Where a path leads, every link followed. -/
def follow (path : Path) : Except IoError (List Name) :=
  match tree.realpath fs.links [] (fs.locate path) with
  | .ok place => .ok place
  | .error .missing => .error .notFound
  | .error .notADirectory => .error (.other "Not a directory (os error 20)")
  | .error .loop => .error (.other "Too many levels of symbolic links (os error 40)")

/-- A path that is handed to no call: the empty one, and one with a NUL byte. -/
def unfit (path : Path) : Option IoError :=
  if path = [] then some .notFound
  else if path.any Component.hasNul then some (.other "file name contained an unexpected NUL byte")
  else none

/-- `std::fs::canonicalize`, as the place that the path it returns names. -/
def canonicalize (path : Path) : Except IoError (List Name) :=
  match unfit path with
  | some e => .error e
  | none => fs.follow tree path

/-- `Path::exists`. -/
def pathExists (path : Path) : Bool :=
  match fs.canonicalize tree path with
  | .ok _ => true
  | .error _ => false

/-- `Path::is_dir`. -/
def isDir (path : Path) : Bool :=
  match fs.canonicalize tree path with
  | .ok place => tree.kind? place = some .dir
  | .error _ => false

/-- Where the last component of a path stands or would stand; it is not followed. -/
def entryPlace (path : Path) : Except IoError (List Name) :=
  match unfit path with
  | some e => .error e
  | none =>
      match path.getLast? with
      | some (.normal name) =>
          match fs.follow tree path.dropLast with
          | .error e => .error e
          | .ok above =>
              if tree.kind? above ≠ some .dir then .error (.other "Not a directory (os error 20)")
              else if !fs.admits name then .error (.other "File name too long (os error 36)")
              else .ok (above ++ [name])
      | _ => fs.follow tree path

/-- `std::fs::symlink_metadata`. -/
def symlinkMetadata (path : Path) : Except IoError Kind :=
  match fs.entryPlace tree path with
  | .error e => .error e
  | .ok place =>
      match tree.kind? place with
      | some kind => .ok kind
      | none => .error .notFound

end reads

section writes

variable {α : Type} (owner : α)

/-- `std::fs::create_dir`, or `OpenOptions::create_new`: an entry that is there is an error, also a
link. -/
def make (fresh : Fresh) (path : Path) (disk : Disk α) : Disk α × Except IoError Unit :=
  match fs.entryPlace disk.tree path with
  | .error e => (disk, .error e)
  | .ok place =>
      match disk.tree.kind? place with
      | some _ => (disk, .error .alreadyExists)
      | none =>
          match fs.refuses disk.tree place with
          | some e => (disk, .error e)
          | none => (disk.add owner fresh place, .ok ())

/-- The recursion of `create_dir_all`, over the path's components from the last one on. -/
def createDirAllUp : List Component → Disk α → Disk α × Except IoError Unit
  | [], disk => (disk, .ok ())
  | last :: above, disk =>
      let path := (last :: above).reverse
      match fs.make owner .dir path disk with
      | (disk, .ok ()) => (disk, .ok ())
      | (disk, .error .notFound) =>
          if last = .root then (disk, .error (.other "failed to create whole tree"))
          else
            match createDirAllUp above disk with
            | (disk, .error e) => (disk, .error e)
            | (disk, .ok ()) =>
                match fs.make owner .dir path disk with
                | (disk, .ok ()) => (disk, .ok ())
                | (disk, .error e) =>
                    if fs.isDir disk.tree path then (disk, .ok ()) else (disk, .error e)
      | (disk, .error e) => if fs.isDir disk.tree path then (disk, .ok ()) else (disk, .error e)

/-- `std::fs::create_dir_all`. -/
def createDirAll (path : Path) (disk : Disk α) : Disk α × Except IoError Unit :=
  fs.createDirAllUp owner path.reverse disk

end writes

end FileSystem

/-! ### What is at a place -/

namespace FileTree

variable {tree tree' : FileTree}

theorem kind?_eq_some {place : List Name} {kind : Kind} :
    tree.kind? place = some kind ↔ ∃ node, tree.node? place = some node ∧ node.kind = kind := by
  unfold kind?
  exact Option.map_eq_some_iff

theorem kind?_eq_none {place : List Name} : tree.kind? place = none ↔ tree.node? place = none := by
  unfold kind?
  exact Option.map_eq_none_iff

theorem kind_eq_dir {node : Node} : node.kind = .dir ↔ ∃ entries, node = .dir entries := by
  cases node <;> simp [Node.kind]

theorem kind?_eq_dir {place : List Name} :
    tree.kind? place = some .dir ↔ ∃ entries, tree.node? place = some (.dir entries) := by
  rw [kind?_eq_some]
  constructor
  · rintro ⟨node, hnode, hkind⟩
    obtain ⟨entries, rfl⟩ := kind_eq_dir.mp hkind
    exact ⟨entries, hnode⟩
  · rintro ⟨entries, hnode⟩
    exact ⟨_, hnode, rfl⟩

theorem kind?_eq_symlink {place : List Name} {target : Path} :
    tree.kind? place = some (.symlink target) ↔ tree.node? place = some (.symlink target) := by
  rw [kind?_eq_some]
  constructor
  · rintro ⟨node, hnode, hkind⟩
    cases node with
    | dir entries => cases hkind
    | file => cases hkind
    | symlink target' =>
        cases hkind
        exact hnode
  · intro hnode
    exact ⟨_, hnode, rfl⟩

theorem isLink_iff {place : List Name} :
    tree.IsLink place ↔ ∃ target, tree.kind? place = some (.symlink target) :=
  exists_congr fun _ => kind?_eq_symlink.symm

@[simp]
theorem kind?_root : tree.kind? [] = some .dir := rfl

/-- What is in something is in a directory. -/
theorem kind?_above {place : List Name} {name : Name} (h : tree.kind? (place ++ [name]) ≠ none) :
    tree.kind? place = some .dir := by
  rw [Ne, kind?_eq_none, node?_append] at h
  cases hnode : tree.node? place with
  | none =>
      rw [hnode] at h
      exact absurd rfl h
  | some node =>
      rw [hnode] at h
      cases node with
      | dir entries => exact kind?_eq_dir.mpr ⟨entries, hnode⟩
      | file => exact absurd rfl h
      | symlink target => exact absurd rfl h

/-- What is above something that is there is there. -/
theorem kind?_isPrefix {above place : List Name} (h : tree.kind? place ≠ none)
    (habove : above <+: place) : tree.kind? above ≠ none := by
  obtain ⟨names, rfl⟩ := habove
  intro hnone
  exact h (kind?_eq_none.mpr (node?_missing (kind?_eq_none.mp hnone) names))

/-- A missing place that has something there above it is below that. -/
theorem prefix_of_missing {above place all : List Name} (habove : tree.kind? above ≠ none)
    (hplace : tree.kind? place = none) (h : place <+: all)
    (h' : above <+: all) : above <+: place := by
  rcases List.prefix_or_prefix_of_prefix h' h with hprefix | hprefix
  · exact hprefix
  · exact absurd hplace (kind?_isPrefix habove hprefix)

/-! ### Trees with the same links -/

/-- Every entry of a tree is in the other one, and is the same there. -/
def Kept (tree tree' : FileTree) : Prop :=
  ∀ place kind, tree.kind? place = some kind → tree'.kind? place = some kind

/-- Two trees have the same links. -/
def SameLinks (tree tree' : FileTree) : Prop :=
  ∀ place target, tree.kind? place = some (.symlink target) ↔
    tree'.kind? place = some (.symlink target)

theorem SameLinks.symm (h : tree.SameLinks tree') : tree'.SameLinks tree :=
  fun place target => (h place target).symm

theorem SameLinks.isLink (h : tree.SameLinks tree') (place : List Name) :
    tree.IsLink place ↔ tree'.IsLink place := by
  rw [isLink_iff, isLink_iff]
  exact exists_congr (h place)

theorem SameLinks.resolves (h : tree.SameLinks tree') {place real : List Name} {path : Path}
    (hreal : tree.Resolves place path real) : tree'.Resolves place path real := by
  induction hreal with
  | done place => exact .done place
  | root _ ih => exact .root ih
  | cur _ ih => exact .cur ih
  | parent _ ih => exact .parent ih
  | entry hname _ ih => exact .entry (fun hlink => hname ((h.isLink _).mpr hlink)) ih
  | link hlink _ ih =>
      exact .link (kind?_eq_symlink.mp ((h _ _).mp (kind?_eq_symlink.mpr hlink))) ih

theorem Kept.missing (h : tree.Kept tree') {place : List Name} (hplace : tree'.kind? place = none) :
    tree.kind? place = none := by
  cases hkind : tree.kind? place with
  | none => rfl
  | some kind =>
      rw [h place kind hkind] at hplace
      cases hplace

/-- What one component does, by the kinds of entries. -/
theorem step_normal (place : List Name) (name : Name) :
    tree.step place (.normal name) =
      if tree.kind? place = some .dir then
        match tree.kind? (place ++ [name]) with
        | none => .fails .missing
        | some (.symlink target) => .follow target
        | some _ => .leads (place ++ [name])
      else .fails .notADirectory := by
  unfold kind?
  rw [node?_append, step]
  cases hnode : tree.node? place with
  | none => rfl
  | some node =>
      cases node with
      | file => rfl
      | symlink target => rfl
      | dir entries =>
          simp only [Option.map_some, Node.kind, if_pos, Option.bind_some, below]
          cases entry? entries name with
          | none => rfl
          | some node => cases node <;> rfl

theorem step_up (place : List Name) {c : Component} (hc : c = .cur ∨ c = .parent) :
    tree.step place c =
      if tree.kind? place = some .dir then .leads (if c = .cur then place else place.dropLast)
      else .fails .notADirectory := by
  unfold kind?
  rcases hc with rfl | rfl
  all_goals
    rw [step]
    cases tree.node? place with
    | none => rfl
    | some node => cases node <;> rfl

/-- A component that does not fail does the same where every entry is kept. -/
theorem Kept.step (h : tree.Kept tree') (place : List Name) (c : Component) :
    (∃ why, tree.step place c = .fails why) ∨ tree'.step place c = tree.step place c := by
  cases c with
  | root => exact Or.inr rfl
  | cur =>
      rw [step_up place (Or.inl rfl), step_up place (Or.inl rfl)]
      by_cases hdir : tree.kind? place = some .dir
      · rw [if_pos hdir, if_pos (h _ _ hdir)]
        exact Or.inr rfl
      · rw [if_neg hdir]
        exact Or.inl ⟨_, rfl⟩
  | parent =>
      rw [step_up place (Or.inr rfl), step_up place (Or.inr rfl)]
      by_cases hdir : tree.kind? place = some .dir
      · rw [if_pos hdir, if_pos (h _ _ hdir)]
        exact Or.inr rfl
      · rw [if_neg hdir]
        exact Or.inl ⟨_, rfl⟩
  | normal name =>
      rw [step_normal, step_normal]
      by_cases hdir : tree.kind? place = some .dir
      · rw [if_pos hdir, if_pos (h _ _ hdir)]
        cases hkind : tree.kind? (place ++ [name]) with
        | none => exact Or.inl ⟨_, rfl⟩
        | some kind =>
            rw [h _ _ hkind]
            exact Or.inr rfl
      · rw [if_neg hdir]
        exact Or.inl ⟨_, rfl⟩

theorem Kept.walk (h : tree.Kept tree') (place : List Name) (path : Path) :
    (∃ why, tree.walk place path = .failed why) ∨ tree'.walk place path = tree.walk place path := by
  induction path generalizing place with
  | nil => exact Or.inr rfl
  | cons c path ih =>
      rw [FileTree.walk, FileTree.walk]
      rcases h.step place c with ⟨why, hstep⟩ | hstep
      · rw [hstep]
        exact Or.inl ⟨why, rfl⟩
      · rw [hstep]
        cases tree.step place c with
        | leads next => exact ih next
        | follow target => exact Or.inr rfl
        | fails why => exact Or.inr rfl

/-- What was found is found again. -/
theorem Kept.realpath (h : tree.Kept tree') {links : ℕ} {place real : List Name} {path : Path}
    (hreal : tree.realpath links place path = .ok real) :
    tree'.realpath links place path = .ok real := by
  have hsame : ∀ {place path}, (∀ why, tree.walk place path ≠ .failed why) →
      tree'.walk place path = tree.walk place path := by
    intro place path hno
    rcases h.walk place path with ⟨why, hfails⟩ | hsame
    · exact absurd hfails (hno why)
    · exact hsame
  induction links generalizing place path with
  | zero =>
      rcases realpath_ok hreal with hwalk | ⟨_, _, _, hlinks, _⟩
      · exact realpath_arrived ((hsame (by simp [hwalk])).trans hwalk) _
      · cases hlinks
  | succ links ih =>
      rcases realpath_ok hreal with hwalk | ⟨fewer, mid, rest, hlinks, hwalk, hrest⟩
      · exact realpath_arrived ((hsame (by simp [hwalk])).trans hwalk) _
      · cases hlinks
        rw [realpath_link ((hsame (by simp [hwalk])).trans hwalk)]
        exact ih hrest

/-- What is found is there. -/
theorem walk_there {place real : List Name} {path : Path} (hplace : tree.kind? place ≠ none) :
    (tree.walk place path = .arrived real → tree.kind? real ≠ none) ∧
      ∀ rest, tree.walk place path = .link real rest → tree.kind? real ≠ none := by
  induction path generalizing place with
  | nil =>
      refine ⟨?_, fun rest h => by cases h⟩
      intro h
      cases h
      exact hplace
  | cons c path ih =>
      rw [FileTree.walk]
      cases hstep : tree.step place c with
      | fails why => exact ⟨fun h => (by cases h), fun rest h => by cases h⟩
      | follow target =>
          refine ⟨fun h => (by cases h), ?_⟩
          intro rest h
          cases h
          exact hplace
      | leads next =>
          apply ih
          cases c with
          | root =>
              cases hstep
              exact Option.some_ne_none _
          | cur =>
              rw [step_up place (Or.inl rfl)] at hstep
              split at hstep
              · cases hstep
                exact hplace
              · cases hstep
          | parent =>
              rw [step_up place (Or.inr rfl)] at hstep
              split at hstep
              · cases hstep
                exact kind?_isPrefix hplace (List.dropLast_prefix place)
              · cases hstep
          | normal name =>
              rw [step_normal] at hstep
              split at hstep
              · cases hkind : tree.kind? (place ++ [name]) with
                | none =>
                    rw [hkind] at hstep
                    cases hstep
                | some kind =>
                    rw [hkind] at hstep
                    cases kind with
                    | symlink target => cases hstep
                    | dir =>
                        cases hstep
                        exact Option.ne_none_iff_exists'.mpr ⟨_, hkind⟩
                    | file =>
                        cases hstep
                        exact Option.ne_none_iff_exists'.mpr ⟨_, hkind⟩
              · cases hstep

theorem realpath_there {links : ℕ} {place real : List Name} {path : Path}
    (hplace : tree.kind? place ≠ none) (hreal : tree.realpath links place path = .ok real) :
    tree.kind? real ≠ none := by
  induction links generalizing place path with
  | zero =>
      rcases realpath_ok hreal with hwalk | ⟨_, _, _, hlinks, _⟩
      · exact (walk_there hplace).1 hwalk
      · cases hlinks
  | succ links ih =>
      rcases realpath_ok hreal with hwalk | ⟨fewer, mid, rest, hlinks, hwalk, hrest⟩
      · exact (walk_there hplace).1 hwalk
      · cases hlinks
        exact ih ((walk_there hplace).2 rest hwalk) hrest

/-- Names that lead past no link lead where they say. -/
theorem Linkless.resolves {place names : List Name} (h : tree.Linkless (place ++ names)) :
    tree.Resolves place (names.map .normal) (place ++ names) := by
  induction names generalizing place with
  | nil =>
      rw [List.append_nil]
      exact .done place
  | cons name names ih =>
      have hsplit : place ++ name :: names = (place ++ [name]) ++ names := by simp
      rw [hsplit] at h ⊢
      exact .entry (h _ (List.prefix_append _ _)) (ih h)

/-- So does a path from the root, and to nowhere else. -/
theorem Linkless.eq_of_resolves {names real : List Name} (h : tree.Linkless names)
    (hreal : tree.Resolves [] (.root :: names.map .normal) real) : real = names :=
  hreal.unique (.root (@Linkless.resolves tree [] names h))

/-- Names that lead past no link to something that is there are walked. -/
theorem Linkless.walk {names : List Name} (h : tree.Linkless names)
    (hthere : tree.kind? names ≠ none) :
    tree.walk [] (.root :: names.map .normal) = .arrived names := by
  induction names using List.reverseRecOn with
  | nil => rfl
  | append_singleton names name ih =>
      have hdir := kind?_above hthere
      have habove : tree.Linkless names :=
        fun above habove => h above (habove.trans (List.prefix_append _ _))
      rw [List.map_append, ← List.cons_append, walk_append, ih habove (by simp [hdir])]
      dsimp only
      rw [List.map_singleton, FileTree.walk]
      rw [step_normal, if_pos hdir]
      cases hkind : tree.kind? (names ++ [name]) with
      | none => exact absurd hkind hthere
      | some kind =>
          cases kind with
          | symlink target =>
              exact absurd (isLink_iff.mpr ⟨target, hkind⟩) (h _ (List.prefix_refl _))
          | dir => rfl
          | file => rfl

/-- Nothing is a link at or below a place that is missing. -/
theorem Linkless.append_missing {place rest : List Name} {name : Name} (h : tree.Linkless place)
    (hmissing : tree.kind? (place ++ [name]) = none) : tree.Linkless (place ++ name :: rest) := by
  intro above habove
  have hsplit : place ++ name :: rest = (place ++ [name]) ++ rest := by simp
  rcases List.prefix_or_prefix_of_prefix habove
    (List.prefix_append place (name :: rest)) with hinside | hbelow
  · exact h above hinside
  · rw [isLink_iff]
    rintro ⟨target, htarget⟩
    have hthere : tree.kind? above ≠ none := by simp [htarget]
    rw [hsplit] at habove
    rcases List.prefix_or_prefix_of_prefix habove
      (List.prefix_append (place ++ [name]) rest) with hshort | hlong
    · rcases List.prefix_concat_iff.mp hshort with rfl | hinside
      · exact hthere hmissing
      · exact h above hinside (isLink_iff.mpr ⟨target, htarget⟩)
    · exact kind?_isPrefix hthere hlong hmissing

/-! ### An entry that is put -/

theorem entry?_append (entries : List (Name × Node)) (name other : Name) (node : Node) :
    entry? (entries ++ [(name, node)]) other =
      ( entry? entries other).or (if name = other then some node else none) := by
  unfold entry?
  rw [List.find?_append, Option.map_or]
  congr 1
  by_cases h : name = other
  · simp [h]
  · simp [h]

theorem entry?_map (entries : List (Name × Node)) (above other : Name) (change : Node → Node) :
    entry? (entries.map fun e => (e.1, if e.1 = above then change e.2 else e.2)) other =
      if other = above then ( entry? entries other).map change else entry? entries other := by
  unfold entry?
  rw [List.find?_map]
  have hsame : (fun e : Name × Node => decide (e.1 = other)) ∘
      (fun e : Name × Node => (e.1, if e.1 = above then change e.2 else e.2)) = fun e =>
        decide (e.1 = other) := rfl
  rw [hsame]
  cases hfind : entries.find? fun e => e.1 = other with
  | none => simp
  | some e =>
      have he := List.find?_some hfind
      rw [decide_eq_true_eq] at he
      by_cases h : other = above <;> simp [he, h]

/-- What is at a place, by the entry of its first name. -/
theorem kind?_cons (entries : List (Name × Node)) (name : Name) (names : List Name) :
    (FileTree.mk entries).kind? (name :: names) =
      match entry? entries name with
      | none => none
      | some (.dir inner) => (FileTree.mk inner).kind? names
      | some node => if names = [] then some node.kind else none := by
  have hnothing : ∀ names : List Name,
      names.foldl (fun node name => node.bind (below · name)) (none : Option Node) = none := by
    intro names
    induction names with
    | nil => rfl
    | cons name names ih => exact ih
  unfold kind? node?
  rw [List.foldl_cons, Option.bind_some, below]
  cases hentry : entry? entries name with
  | none =>
      rw [hnothing]
      rfl
  | some node =>
      cases node with
      | dir inner => rfl
      | file =>
          cases names with
          | nil => rfl
          | cons next names =>
              rw [List.foldl_cons, Option.bind_some]
              exact congrArg (Option.map Node.kind) (hnothing names)
      | symlink target =>
          cases names with
          | nil => rfl
          | cons next names =>
              rw [List.foldl_cons, Option.bind_some]
              exact congrArg (Option.map Node.kind) (hnothing names)

/-- An entry that is put where there is none is there, and nothing else has changed. -/
theorem kind?_put {entries : List (Name × Node)} {above : List Name} {name : Name} (fresh : Fresh)
    (habove : (FileTree.mk entries).kind? above = some .dir)
    (hmissing : (FileTree.mk entries).kind? (above ++ [name]) = none) (place : List Name) :
    (FileTree.mk (put fresh.node (above ++ [name]) entries)).kind? place =
      if place = above ++ [name] then some fresh.kind else (FileTree.mk entries).kind? place := by
  induction above generalizing entries place with
  | nil =>
      cases place with
      | nil => simp
      | cons other rest =>
          rw [List.nil_append, kind?_cons] at hmissing
          rw [List.nil_append, kind?_cons, kind?_cons, put, entry?_append]
          by_cases hname : name = other
          · subst hname
            cases hentry : entry? entries name with
            | none =>
                rw [Option.none_or, if_pos rfl]
                cases fresh with
                | file =>
                    by_cases hrest : rest = []
                    · simp [hrest, Fresh.node, Fresh.kind, Node.kind]
                    · simp [hrest, Fresh.node]
                | dir =>
                    cases rest with
                    | nil => simp [Fresh.node, Fresh.kind]
                    | cons next rest => simp [Fresh.node, kind?_cons, entry?]
            | some node =>
                rw [hentry] at hmissing
                cases node with
                | dir inner => simp at hmissing
                | file => simp at hmissing
                | symlink target => simp at hmissing
          · rw [if_neg hname, Option.or_none, if_neg (by simp [Ne.symm hname])]
  | cons first above ih =>
      cases place with
      | nil => simp
      | cons other rest =>
          have hput : put fresh.node (first :: above ++ [name]) entries =
              entries.map fun e =>
                (e.1, if e.1 = first then intoDir
                  (put fresh.node (above ++ [name])) e.2 else e.2) := by
            cases above <;> rfl
          rw [kind?_cons] at habove
          rw [List.cons_append, kind?_cons] at hmissing
          rw [hput, kind?_cons, kind?_cons, entry?_map]
          by_cases hname : other = first
          · subst hname
            rw [if_pos rfl]
            cases hentry : entry? entries other with
            | none =>
                rw [hentry] at habove
                cases habove
            | some node =>
                rw [hentry] at habove hmissing
                cases node with
                | dir inner =>
                    simp only [List.cons_append, List.cons.injEq, true_and]
                    exact ih habove hmissing rest
                | file =>
                    dsimp only at habove
                    split at habove
                    · cases habove
                    · cases habove
                | symlink target =>
                    dsimp only at habove
                    split at habove
                    · cases habove
                    · cases habove
          · rw [if_neg hname, if_neg (by simp [hname])]

end FileTree

/-! ### What a run of calls has done -/

/-- Every entry there was is there and is what it was, no link is new, and whatever is new is
recorded, was missing and has a property. -/
structure Grown {α : Type} (P : Made α → Kind → Prop) (before after : Disk α) : Prop where
  kept : before.tree.Kept after.tree
  links : before.tree.SameLinks after.tree
  content : ∀ place, before.tree.kind? place ≠ none → after.content place = before.content place
  recorded : ∃ made, after.made = before.made ++ made ∧
    (∀ e ∈ made, before.tree.kind? e.place = none ∧ ∃ kind,
      after.tree.kind? e.place = some kind ∧ P e kind) ∧
    ∀ place, before.tree.kind? place = none → after.tree.kind? place ≠ none →
      ∃ e ∈ made, e.place = place

namespace Grown

variable {α : Type} {P Q : Made α → Kind → Prop} {before mid after : Disk α}

theorem refl (disk : Disk α) : Grown P disk disk where
  kept _ _ h := h
  links _ _ := Iff.rfl
  content _ _ := rfl
  recorded := ⟨[], by simp, by simp, fun place hnone hsome => absurd hnone hsome⟩

theorem trans (h : Grown P before mid) (h' : Grown P mid after) : Grown P before after where
  kept place kind hkind := h'.kept _ _ (h.kept _ _ hkind)
  links place target := (h.links place target).trans (h'.links place target)
  content place hplace := by
    have hmid : mid.tree.kind? place ≠ none := fun hnone => hplace (h.kept.missing hnone)
    rw [h'.content place hmid, h.content place hplace]
  recorded := by
    obtain ⟨made, hmade, hnew, hall⟩ := h.recorded
    obtain ⟨made', hmade', hnew', hall'⟩ := h'.recorded
    refine ⟨made ++ made', by rw [hmade', hmade, List.append_assoc], ?_, ?_⟩
    · intro e he
      rcases List.mem_append.mp he with he | he
      · obtain ⟨hnone, kind, hkind, hP⟩ := hnew e he
        exact ⟨hnone, kind, h'.kept _ _ hkind, hP⟩
      · obtain ⟨hnone, hkind⟩ := hnew' e he
        exact ⟨h.kept.missing hnone, hkind⟩
    · intro place hnone hsome
      by_cases hmid : mid.tree.kind? place = none
      · obtain ⟨e, he, hplace⟩ := hall' place hmid hsome
        exact ⟨e, List.mem_append_right _ he, hplace⟩
      · obtain ⟨e, he, hplace⟩ := hall place hnone hmid
        exact ⟨e, List.mem_append_left _ he, hplace⟩

/-- The property may be weakened, of what was missing before and is there after. -/
theorem mono (h : Grown P before after)
    (hPQ : ∀ e kind, before.tree.kind? e.place = none → after.tree.kind? e.place = some kind →
      P e kind → Q e kind) :
    Grown Q before after where
  kept := h.kept
  links := h.links
  content := h.content
  recorded := by
    obtain ⟨made, hmade, hnew, hall⟩ := h.recorded
    refine ⟨made, hmade, ?_, hall⟩
    intro e he
    obtain ⟨hnone, kind, hkind, hP⟩ := hnew e he
    exact ⟨hnone, kind, hkind, hPQ e kind hnone hkind hP⟩

/-- One more entry. -/
theorem add {disk : Disk α} {owner : α} {fresh : Fresh} {above : List Name} {name : Name}
    (habove : disk.tree.kind? above = some .dir)
    (hmissing : disk.tree.kind? (above ++ [name]) = none)
    (hP : P ⟨owner, above ++ [name]⟩ fresh.kind) :
    Grown P disk (disk.add owner fresh (above ++ [name])) := by
  have hkind : ∀ place, (disk.add owner fresh (above ++ [name])).tree.kind? place =
      if place = above ++ [name] then some fresh.kind else disk.tree.kind? place :=
    FileTree.kind?_put fresh habove hmissing
  have hother : ∀ place, disk.tree.kind? place ≠ none → place ≠ above ++ [name] := by
    rintro place hplace rfl
    exact hplace hmissing
  constructor
  · intro place kind hplace
    rw [hkind, if_neg (hother place (by simp [hplace])), hplace]
  · intro place target
    rw [hkind]
    by_cases hplace : place = above ++ [name]
    · rw [if_pos hplace, hplace, hmissing]
      cases fresh <;> simp [Fresh.kind]
    · rw [if_neg hplace]
  · intro place hplace
    unfold Disk.add
    dsimp only
    split
    · exact Function.update_of_ne (hother place hplace) _ _
    · rfl
  · refine ⟨[⟨owner, above ++ [name]⟩], rfl, ?_, ?_⟩
    · intro e he
      rw [List.mem_singleton] at he
      subst he
      exact ⟨hmissing, fresh.kind, by rw [hkind, if_pos rfl], hP⟩
    · intro place hnone hsome
      rw [hkind] at hsome
      by_cases hplace : place = above ++ [name]
      · exact ⟨_, List.mem_singleton_self _, hplace.symm⟩
      · rw [if_neg hplace] at hsome
        exact absurd hnone hsome

/-- Where a path leads does not change. -/
theorem resolves_iff (h : Grown P before after) {place real : List Name} {path : Path} :
    after.tree.Resolves place path real ↔ before.tree.Resolves place path real :=
  ⟨h.links.symm.resolves, h.links.resolves⟩

end Grown

/-! ### The calls -/

namespace FileSystem

variable {fs : FileSystem} {tree tree' : FileTree}

theorem follow_eq_ok {path : Path} {place : List Name} :
    fs.follow tree path = .ok place ↔ tree.realpath fs.links [] (fs.locate path) = .ok place := by
  unfold follow
  cases hreal : tree.realpath fs.links [] (fs.locate path) with
  | ok real => simp
  | error why => cases why <;> simp

theorem follow_there {path : Path} {place : List Name} (h : fs.follow tree path = .ok place) :
    tree.kind? place ≠ none :=
  FileTree.realpath_there (by simp) (follow_eq_ok.mp h)

theorem follow_resolves {path : Path} {place : List Name} (h : fs.follow tree path = .ok place) :
    tree.Resolves [] (fs.locate path) place :=
  FileTree.realpath_resolves (follow_eq_ok.mp h)

theorem follow_kept (h : tree.Kept tree') {path : Path} {place : List Name}
    (hplace : fs.follow tree path = .ok place) :
    fs.follow tree' path = .ok place :=
  follow_eq_ok.mpr (h.realpath (follow_eq_ok.mp hplace))

theorem canonicalize_eq_ok {path : Path} {place : List Name} :
    fs.canonicalize tree path = .ok place ↔
      unfit path = none ∧ fs.follow tree path = .ok place := by
  unfold canonicalize
  cases unfit path with
  | none => simp
  | some e => simp

/-- What was found is found again. -/
theorem canonicalize_kept (h : tree.Kept tree') {path : Path} {place : List Name}
    (hplace : fs.canonicalize tree path = .ok place) : fs.canonicalize tree' path = .ok place := by
  rw [canonicalize_eq_ok] at hplace ⊢
  exact ⟨hplace.1, follow_kept h hplace.2⟩

theorem pathExists_iff {path : Path} :
    fs.pathExists tree path = true ↔ ∃ place, fs.canonicalize tree path = .ok place := by
  unfold pathExists
  cases fs.canonicalize tree path with
  | ok place => simp
  | error e => simp

theorem isDir_iff {path : Path} :
    fs.isDir tree path = true ↔
      ∃ place, fs.canonicalize tree path = .ok place ∧ tree.kind? place = some .dir := by
  unfold isDir
  cases fs.canonicalize tree path with
  | ok place => simp
  | error e => simp

/-- A path and one name more. -/
theorem locate_concat (init : Path) (name : Name) :
    fs.locate (init ++ [.normal name]) = fs.locate init ++ [.normal name] := by
  unfold locate join
  cases init with
  | nil => simp [isAbsolute]
  | cons c init =>
      by_cases hc : isAbsolute (c :: init) = true
      · rw [if_pos hc, if_pos (by simpa [isAbsolute] using hc)]
      · rw [if_neg hc, if_neg (by simpa [isAbsolute] using hc), if_neg (by simp), if_neg (by simp),
          List.filter_append]
        simp

theorem locate_absolute (names : Path) : fs.locate (.root :: names) = .root :: names :=
  join_absolute rfl

section writes

variable {α : Type} {owner : α}

/-- A call that makes an entry has found its directory, and nothing where the entry is to be. -/
theorem make_cases (fresh : Fresh) (path : Path) (disk : Disk α) :
    (∃ e, fs.make owner fresh path disk = (disk, .error e)) ∨
      ∃ init above name,
        path = init ++ [.normal name] ∧ unfit path = none ∧ fs.follow disk.tree init = .ok above ∧
        disk.tree.kind? above = some .dir ∧ disk.tree.kind? (above ++ [name]) = none ∧
        fs.make owner fresh path disk = (disk.add owner fresh (above ++ [name]), .ok ()) := by
  unfold make
  cases hplace : fs.entryPlace disk.tree path with
  | error e => exact Or.inl ⟨e, rfl⟩
  | ok place =>
      dsimp only
      cases hkind : disk.tree.kind? place with
      | some kind => exact Or.inl ⟨_, rfl⟩
      | none =>
          dsimp only
          cases hrefuses : fs.refuses disk.tree place with
          | some e => exact Or.inl ⟨_, rfl⟩
          | none =>
              right
              unfold entryPlace at hplace
              split at hplace
              · cases hplace
              · next hfit =>
                  split at hplace
                  · next name hlast =>
                      split at hplace
                      · cases hplace
                      · next above hfollow =>
                          split at hplace
                          · cases hplace
                          · next hdir =>
                              split at hplace
                              · cases hplace
                              · cases hplace
                                refine ⟨path.dropLast, above, name, ?_, hfit, hfollow,
                                  not_not.mp hdir, hkind, rfl⟩
                                exact (List.dropLast_append_getLast? _ hlast).symm
                  · exact absurd hkind (follow_there hplace)

/-- What a call makes is where its path leads. -/
theorem grown_make (fresh : Fresh) (path : Path) (disk : Disk α) :
    Grown (fun e kind => e.owner = owner ∧ kind = fresh.kind ∧
      disk.tree.Resolves [] (fs.locate path) e.place)
      disk (fs.make owner fresh path disk).1 := by
  rcases fs.make_cases fresh path disk with
      ⟨e, he⟩ | ⟨init, above, name, rfl, _, hfollow, hdir, hmissing, hmake⟩
  · rw [he]
    exact .refl disk
  · rw [hmake]
    refine .add hdir hmissing ⟨rfl, rfl, ?_⟩
    rw [locate_concat]
    refine (follow_resolves hfollow).append (.entry ?_ (.done _))
    rw [FileTree.isLink_iff]
    rintro ⟨target, htarget⟩
    rw [hmissing] at htarget
    cases htarget

/-- A directory that was made is found. -/
theorem isDir_make {path : Path} {disk disk' : Disk α}
    (h : fs.make owner .dir path disk = (disk', .ok ())) : fs.isDir disk'.tree path = true := by
  have hgrown := @grown_make fs _ owner .dir path disk
  rcases @make_cases fs _ owner .dir path disk with
    ⟨e, he⟩ | ⟨init, above, name, rfl, hfit, hfollow, hdir, hmissing, hmake⟩
  · rw [he] at h
    cases h
  · rw [hmake] at h hgrown
    cases h
    have hthere := FileTree.kind?_put .dir hdir hmissing (above ++ [name])
    rw [if_pos rfl] at hthere
    have hkind : (disk.add owner .dir (above ++ [name])).tree.kind? (above ++ [name]) = some .dir :=
      hthere
    refine isDir_iff.mpr ⟨above ++ [name],
      canonicalize_eq_ok.mpr ⟨hfit, follow_eq_ok.mpr ?_⟩, hkind⟩
    have habove := follow_eq_ok.mp (follow_kept hgrown.kept hfollow)
    obtain ⟨links, hlinks⟩ := (FileTree.realpath_append fs.links [] _ [.normal name]).2 above habove
    rw [locate_concat, hlinks]
    apply FileTree.realpath_arrived
    rw [FileTree.walk, FileTree.step_normal, if_pos (hgrown.kept _ _ hdir), hkind]
    rfl

theorem createDirAll_concat (above : Path) (last : Component) (disk : Disk α) :
    fs.createDirAll owner (above ++ [last]) disk =
      match fs.make owner .dir (above ++ [last]) disk with
      | (disk, .ok ()) => (disk, .ok ())
      | (disk, .error .notFound) =>
          if last = .root then (disk, .error (.other "failed to create whole tree"))
          else
            match fs.createDirAll owner above disk with
            | (disk, .error e) => (disk, .error e)
            | (disk, .ok ()) =>
                match fs.make owner .dir (above ++ [last]) disk with
                | (disk, .ok ()) => (disk, .ok ())
                | (disk, .error e) =>
                    if fs.isDir disk.tree (above ++ [last]) then (disk, .ok ())
                    else (disk, .error e)
      | (disk, .error e) =>
          if fs.isDir disk.tree (above ++ [last]) then (disk, .ok ()) else (disk, .error e) := by
  have hpath : (last :: above.reverse).reverse = above ++ [last] := by simp
  unfold createDirAll
  rw [List.reverse_append, List.reverse_singleton, List.singleton_append, createDirAllUp, hpath]

/-- What `create_dir_all` makes: directories, each where some start of the path leads. -/
def MadeOnTheWay (fs : FileSystem) (tree : FileTree) (owner : α) (path : Path) (e : Made α)
    (kind : Kind) : Prop :=
  e.owner = owner ∧ kind = .dir ∧
    ∃ above below, path = above ++ below ∧ above ≠ [] ∧ tree.Resolves [] (fs.locate above) e.place

theorem grown_make_dir {path : Path} (hpath : path ≠ []) (disk : Disk α) :
    Grown (MadeOnTheWay fs disk.tree owner path) disk (fs.make owner .dir path disk).1 := by
  refine (fs.grown_make .dir path disk).mono ?_
  rintro e kind - - ⟨howner, hkind, hplace⟩
  exact ⟨howner, hkind, path, [], by simp, hpath, hplace⟩

theorem grown_createDirAll (path : Path) (disk : Disk α) :
    Grown (MadeOnTheWay fs disk.tree owner path) disk (fs.createDirAll owner path disk).1 := by
  induction path using List.reverseRecOn generalizing disk with
  | nil => exact .refl disk
  | append_singleton above last ih =>
      have hpath : above ++ [last] ≠ [] := by simp
      have hfirst := @grown_make_dir fs _ owner _ hpath disk
      rw [createDirAll_concat]
      split
      · next disk₁ h₁ =>
          rw [h₁] at hfirst
          exact hfirst
      · next disk₁ h₁ =>
          rw [h₁] at hfirst
          split
          · exact hfirst
          · -- the directory above is made first, and then the call is made again
            have habove : Grown (MadeOnTheWay fs disk.tree owner (above ++ [last])) disk₁
                (fs.createDirAll owner above disk₁).1 := by
              refine (ih disk₁).mono ?_
              rintro e kind - - ⟨howner, hkind, start, rest, rfl, hstart, hplace⟩
              exact ⟨howner, hkind, start, rest ++ [last], by
                simp, hstart, hfirst.resolves_iff.mp hplace⟩
            split
            · next disk₂ e h₂ =>
                rw [h₂] at habove
                exact hfirst.trans habove
            · next disk₂ h₂ =>
                rw [h₂] at habove
                have htwice := hfirst.trans habove
                have hagain : Grown (MadeOnTheWay fs disk.tree owner (above ++ [last])) disk₂
                    (fs.make owner .dir (above ++ [last]) disk₂).1 := by
                  refine (fs.grown_make_dir hpath disk₂).mono ?_
                  rintro e kind - - ⟨howner, hkind, start, rest, hsplit, hstart, hplace⟩
                  exact ⟨howner, hkind, start, rest, hsplit, hstart, htwice.resolves_iff.mp hplace⟩
                split
                · next disk₃ h₃ =>
                    rw [h₃] at hagain
                    exact htwice.trans hagain
                · next disk₃ e h₃ =>
                    rw [h₃] at hagain
                    split
                    · exact htwice.trans hagain
                    · exact htwice.trans hagain
      · next disk₁ e _ h₁ =>
          rw [h₁] at hfirst
          split
          · exact hfirst
          · exact hfirst

/-- After `create_dir_all` the path is a directory. -/
theorem isDir_createDirAll {path : Path} (hpath : path ≠ []) {disk disk' : Disk α}
    (h : fs.createDirAll owner path disk = (disk', .ok ())) : fs.isDir disk'.tree path = true := by
  obtain ⟨above, last, rfl⟩ : ∃ above last, path = above ++ [last] :=
    ⟨path.dropLast, path.getLast hpath, (List.dropLast_append_getLast hpath).symm⟩
  rw [createDirAll_concat] at h
  split at h
  · next disk₁ h₁ =>
      cases h
      exact fs.isDir_make h₁
  · split at h
    · cases h
    · split at h
      · cases h
      · split at h
        · next h₃ =>
            cases h
            exact fs.isDir_make h₃
        · split at h
          · next hdir =>
              cases h
              exact hdir
          · cases h
  · split at h
    · next hdir =>
        cases h
        exact hdir
    · cases h

end writes

end FileSystem

end Paths
