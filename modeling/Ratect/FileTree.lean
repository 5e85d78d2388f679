import Ratect.Paths

/-! # A file system as a tree

Directories, files and symbolic links, read as POSIX reads a path.  `walk` goes as far as the first
link, `realpath` follows so many of them and fails where something is missing (`realpath_append`:
whatever a path starts with fails as the whole does).  `Resolves` is where a path leads once
everything missing on the way is taken to be a plain entry: every link that is there is followed,
also one to nothing, so that no prefix of the result is a link (`Resolves.linkless`).  What
`realpath` finds is that place (`realpath_resolves`), and where no link is on the way (`LinkOn`) it
is where cleaning the path leads (`Resolves.clean_eq`). -/

namespace Paths

/-- An entry of a directory. -/
inductive Node where
  | dir (entries : List (Name × Node))
  | file
  | symlink (target : Path)

/-- A file system, by the entries of its root. -/
structure FileTree where
  entries : List (Name × Node)

/-- Why a path has no real location. -/
inductive Unresolved where
  | missing
  | notADirectory
  | loop
deriving DecidableEq, Repr

namespace FileTree

/-- The entry of a name. -/
def entry? (entries : List (Name × Node)) (name : Name) : Option Node :=
  (entries.find? fun e => e.1 = name).map Prod.snd

/-- The node below another one. -/
def below (node : Node) (name : Name) : Option Node :=
  match node with
  | .dir entries => entry? entries name
  | _ => none

variable (tree : FileTree)

/-- The node at a place, by the names that lead there from the root; links are not followed. -/
def node? (place : List Name) : Option Node :=
  place.foldl (fun node name => node.bind (below · name)) (some (.dir tree.entries))

/-- A place where a link stands. -/
def IsLink (place : List Name) : Prop := ∃ target, tree.node? place = some (.symlink target)

instance (place : List Name) : Decidable (tree.IsLink place) :=
  match h : tree.node? place with
  | some (.symlink target) => .isTrue ⟨target, h⟩
  | some .file => .isFalse fun ⟨_, hlink⟩ => by rw [h] at hlink; cases hlink
  | some (.dir _) => .isFalse fun ⟨_, hlink⟩ => by rw [h] at hlink; cases hlink
  | none => .isFalse fun ⟨_, hlink⟩ => by rw [h] at hlink; cases hlink

/-- What one component does: it leads to a place, it is a link, or it fails. -/
inductive Step where
  | leads (place : List Name)
  | follow (target : Path)
  | fails (why : Unresolved)

/-- One component of a path, from a place. -/
def step (place : List Name) : Component → Step
  | .root => .leads []
  | .cur =>
      match tree.node? place with
      | some (.dir _) => .leads place
      | _ => .fails .notADirectory
  | .parent =>
      match tree.node? place with
      | some (.dir _) => .leads place.dropLast
      | _ => .fails .notADirectory
  | .normal name =>
      match tree.node? place with
      | some (.dir entries) =>
          match entry? entries name with
          | none => .fails .missing
          | some (.symlink target) => .follow target
          | some _ => .leads (place ++ [name])
      | _ => .fails .notADirectory

/-- What a walk comes to: its end, the first link with what is left to go, or nothing. -/
inductive Walked where
  | arrived (place : List Name)
  | link (place : List Name) (rest : Path)
  | failed (why : Unresolved)

/-- The components of a path one after the other, up to the first link. -/
def walk : List Name → Path → Walked
  | place, [] => .arrived place
  | place, c :: rest =>
      match tree.step place c with
      | .leads next => walk next rest
      | .follow target => .link place (target ++ rest)
      | .fails why => .failed why

/-- `realpath`: where a path really leads, if that is there and no more than `links` are
followed. -/
def realpath (links : ℕ) (place : List Name) (path : Path) : Except Unresolved (List Name) :=
  match tree.walk place path, links with
  | .arrived real, _ => .ok real
  | .failed why, _ => .error why
  | .link _ _, 0 => .error .loop
  | .link mid rest, links + 1 => realpath links mid rest

/-- Where a path leads from a place, with everything that is missing taken as written. -/
inductive Resolves : List Name → Path → List Name → Prop
  | done (place : List Name) : Resolves place [] place
  | root {place : List Name} {rest : Path} {real : List Name} :
      Resolves [] rest real → Resolves place (.root :: rest) real
  | cur {place : List Name} {rest : Path} {real : List Name} :
      Resolves place rest real → Resolves place (.cur :: rest) real
  | parent {place : List Name} {rest : Path} {real : List Name} :
      Resolves place.dropLast rest real → Resolves place (.parent :: rest) real
  | entry {place : List Name} {name : Name} {rest : Path} {real : List Name} :
      ¬ tree.IsLink (place ++ [name]) → Resolves (place ++ [name]) rest real →
      Resolves place (.normal name :: rest) real
  | link {place : List Name} {name : Name} {target rest : Path} {real : List Name} :
      tree.node? (place ++ [name]) = some (.symlink target) → Resolves place (target ++ rest) real →
      Resolves place (.normal name :: rest) real

/-- A place that no link leads to: neither it nor what is above it is one. -/
def Linkless (place : List Name) : Prop := ∀ above, above <+: place → ¬ tree.IsLink above

/-- A link stands on the way that a path goes from a place by its names. -/
def LinkOn : List Name → Path → Prop
  | _, [] => False
  | _, .root :: rest => LinkOn [] rest
  | place, .cur :: rest => LinkOn place rest
  | place, .parent :: rest => LinkOn place.dropLast rest
  | place, .normal name :: rest => tree.IsLink (place ++ [name]) ∨ LinkOn (place ++ [name]) rest

instance decidableLinkOn : (place : List Name) → (path : Path) → Decidable (tree.LinkOn place path)
  | _, [] => .isFalse id
  | _, .root :: rest => decidableLinkOn [] rest
  | place, .cur :: rest => decidableLinkOn place rest
  | place, .parent :: rest => decidableLinkOn place.dropLast rest
  | place, .normal name :: rest =>
      have := decidableLinkOn (place ++ [name]) rest
      inferInstanceAs (Decidable (_ ∨ _))

variable {tree}

/-! ### Places -/

theorem node?_append (place : List Name) (name : Name) :
    tree.node? (place ++ [name]) = (tree.node? place).bind (below · name) := by
  unfold node?
  rw [List.foldl_append]
  rfl

theorem node?_of_dir {place : List Name} {entries : List (Name × Node)}
    (h : tree.node? place = some (.dir entries)) (name : Name) :
    tree.node? (place ++ [name]) = entry? entries name := by
  rw [node?_append, h]
  rfl

/-- Nothing is below what is not there. -/
theorem node?_missing {place : List Name} (h : tree.node? place = none) (names : List Name) :
    tree.node? (place ++ names) = none := by
  induction names using List.reverseRecOn with
  | nil => rw [List.append_nil, h]
  | append_singleton names name ih => rw [← List.append_assoc, node?_append, ih, Option.bind_none]

theorem linkless_root : tree.Linkless [] := by
  intro above habove
  rw [List.prefix_nil.mp habove]
  rintro ⟨target, htarget⟩
  cases htarget

theorem Linkless.append {place : List Name} {name : Name} (h : tree.Linkless place)
    (hname : ¬ tree.IsLink (place ++ [name])) : tree.Linkless (place ++ [name]) := by
  intro above habove
  rcases List.prefix_concat_iff.mp habove with rfl | habove
  · exact hname
  · exact h above habove

theorem Linkless.dropLast {place : List Name} (h : tree.Linkless place) :
    tree.Linkless place.dropLast :=
  fun above habove => h above (habove.trans (List.dropLast_prefix place))

/-! ### Where a path leads -/

/-- Every link on the way is followed, so none is left. -/
theorem Resolves.linkless {place : List Name} {path : Path} {real : List Name}
    (h : tree.Resolves place path real) (hplace : tree.Linkless place) : tree.Linkless real := by
  induction h with
  | done place => exact hplace
  | root _ ih => exact ih linkless_root
  | cur _ ih => exact ih hplace
  | parent _ ih => exact ih hplace.dropLast
  | entry hname _ ih => exact ih (hplace.append hname)
  | link _ _ ih => exact ih hplace

theorem Resolves.append {place mid real : List Name} {path rest : Path}
    (h : tree.Resolves place path mid) (hrest : tree.Resolves mid rest real) :
    tree.Resolves place (path ++ rest) real := by
  induction h with
  | done place => exact hrest
  | root _ ih => exact .root (ih hrest)
  | cur _ ih => exact .cur (ih hrest)
  | parent _ ih => exact .parent (ih hrest)
  | entry hname _ ih => exact .entry hname (ih hrest)
  | link hname _ ih =>
      apply Resolves.link hname
      have hpath := ih hrest
      rwa [List.append_assoc] at hpath

/-- Where the start of a path leads, the rest goes on from there. -/
theorem Resolves.split {place real : List Name} {path start rest : Path}
    (h : tree.Resolves place path real) (hpath : path = start ++ rest) :
    ∃ mid, tree.Resolves place start mid ∧ tree.Resolves mid rest real := by
  induction h generalizing start with
  | done place =>
      obtain ⟨rfl, rfl⟩ := List.append_eq_nil_iff.mp hpath.symm
      exact ⟨place, .done place, .done place⟩
  | @root place path real hreal ih =>
      cases start with
      | nil =>
          cases hpath
          exact ⟨place, .done place, .root hreal⟩
      | cons c start =>
          obtain ⟨rfl, htail⟩ := List.cons.inj hpath
          obtain ⟨mid, hmid, hrest⟩ := ih htail
          exact ⟨mid, .root hmid, hrest⟩
  | @cur place path real hreal ih =>
      cases start with
      | nil =>
          cases hpath
          exact ⟨place, .done place, .cur hreal⟩
      | cons c start =>
          obtain ⟨rfl, htail⟩ := List.cons.inj hpath
          obtain ⟨mid, hmid, hrest⟩ := ih htail
          exact ⟨mid, .cur hmid, hrest⟩
  | @parent place path real hreal ih =>
      cases start with
      | nil =>
          cases hpath
          exact ⟨place, .done place, .parent hreal⟩
      | cons c start =>
          obtain ⟨rfl, htail⟩ := List.cons.inj hpath
          obtain ⟨mid, hmid, hrest⟩ := ih htail
          exact ⟨mid, .parent hmid, hrest⟩
  | @entry place name path real hname hreal ih =>
      cases start with
      | nil =>
          cases hpath
          exact ⟨place, .done place, .entry hname hreal⟩
      | cons c start =>
          obtain ⟨rfl, htail⟩ := List.cons.inj hpath
          obtain ⟨mid, hmid, hrest⟩ := ih htail
          exact ⟨mid, .entry hname hmid, hrest⟩
  | @link place name target path real hlink hreal ih =>
      cases start with
      | nil =>
          cases hpath
          exact ⟨place, .done place, .link hlink hreal⟩
      | cons c start =>
          obtain ⟨rfl, htail⟩ := List.cons.inj hpath
          have hpath' : target ++ path = target ++ start ++ rest := by
            rw [List.append_assoc]
            exact congrArg (target ++ ·) htail
          obtain ⟨mid, hmid, hrest⟩ := ih hpath'
          exact ⟨mid, .link hlink hmid, hrest⟩

/-- Past no link, a path leads where cleaning it does. -/
theorem Resolves.cleaned {place real : List Name} {path : Path} (h : tree.Resolves place path real)
    (hlink : ¬ tree.LinkOn place path) (hroot : .root ∉ path) :
    path.foldl cleanStep (place.reverse.map .normal ++ [.root]) =
      real.reverse.map .normal ++ [.root] := by
  induction h with
  | done place => rfl
  | root _ _ => exact absurd List.mem_cons_self hroot
  | @cur place rest real _ ih =>
      have hstep : cleanStep (place.reverse.map .normal ++ [.root]) .cur =
          place.reverse.map .normal ++ [.root] := by
        cases place.reverse <;> rfl
      rw [List.foldl_cons, hstep]
      exact ih hlink fun h => hroot (List.mem_cons_of_mem _ h)
  | @parent place rest real _ ih =>
      have hstep : cleanStep (place.reverse.map .normal ++ [.root]) .parent =
          place.dropLast.reverse.map .normal ++ [.root] := by
        rw [← List.tail_reverse]
        cases place.reverse <;> rfl
      rw [List.foldl_cons, hstep]
      exact ih hlink fun h => hroot (List.mem_cons_of_mem _ h)
  | @entry place name rest real _ _ ih =>
      have hstep : cleanStep (place.reverse.map .normal ++ [.root]) (.normal name) =
          (place ++ [name]).reverse.map .normal ++ [.root] := by
        rw [List.reverse_concat]
        cases place.reverse <;> rfl
      rw [List.foldl_cons, hstep]
      exact ih (fun h => hlink (.inr h)) fun h => hroot (List.mem_cons_of_mem _ h)
  | link hname _ _ => exact absurd (.inl ⟨_, hname⟩) hlink

/-- So does one from the root. -/
theorem Resolves.clean_eq {real : List Name} {path : Path} (h : tree.Resolves [] path real)
    (hlink : ¬ tree.LinkOn [] path) (habsolute : isAbsolute path = true) (hproper : Proper path) :
    clean path = .root :: real.map .normal := by
  cases path with
  | nil => cases habsolute
  | cons c rest =>
      have hc : c = .root := by simpa [isAbsolute] using habsolute
      subst hc
      cases h with
      | root h =>
          have hstack : rest.foldl cleanStep [.root] = real.reverse.map .normal ++ [.root] :=
            h.cleaned hlink hproper
          unfold clean
          rw [List.foldl_cons, show cleanStep [] .root = [.root] from rfl, hstack]
          cases hreversed : real.reverse with
          | nil =>
              rw [List.reverse_eq_nil_iff.mp hreversed]
              rfl
          | cons name names =>
              rw [← List.reverse_reverse real, hreversed]
              simp [ofStack]

theorem LinkOn.append {place : List Name} {path : Path} (h : tree.LinkOn place path) (rest : Path) :
    tree.LinkOn place (path ++ rest) := by
  induction path generalizing place with
  | nil => exact absurd h id
  | cons c path ih =>
      cases c with
      | root => exact ih h
      | cur => exact ih h
      | parent => exact ih h
      | normal name => exact h.imp_right ih

/-- A tree without new links has none on a way that had none. -/
theorem LinkOn.of_links {tree' : FileTree}
    (hlinks : ∀ place, tree'.IsLink place → tree.IsLink place) {place : List Name} {path : Path}
    (h : tree'.LinkOn place path) : tree.LinkOn place path := by
  induction path generalizing place with
  | nil => exact h
  | cons c path ih =>
      cases c with
      | root => exact ih h
      | cur => exact ih h
      | parent => exact ih h
      | normal name => exact h.imp (hlinks _) ih

/-- What is missing leads where it is written. -/
theorem resolves_missing {place : List Name} (h : tree.node? place = none) (names : List Name) :
    tree.Resolves place (names.map .normal) (place ++ names) := by
  induction names generalizing place with
  | nil =>
      rw [List.append_nil]
      exact .done place
  | cons name names ih =>
      have hnone : tree.node? (place ++ [name]) = none := node?_missing h [name]
      have hnext := ih hnone
      rw [List.append_assoc, List.singleton_append] at hnext
      refine .entry ?_ hnext
      rintro ⟨target, htarget⟩
      rw [hnone] at htarget
      cases htarget

/-- A path leads to one place. -/
theorem Resolves.unique {place : List Name} {path : Path} {real real' : List Name}
    (h : tree.Resolves place path real) (h' : tree.Resolves place path real') : real = real' := by
  induction h with
  | done place =>
      cases h'
      rfl
  | root _ ih =>
      cases h' with
      | root h' => exact ih h'
  | cur _ ih =>
      cases h' with
      | cur h' => exact ih h'
  | parent _ ih =>
      cases h' with
      | parent h' => exact ih h'
  | entry hname _ ih =>
      cases h' with
      | entry _ h' => exact ih h'
      | link hlink _ => exact absurd ⟨_, hlink⟩ hname
  | link hlink _ ih =>
      cases h' with
      | entry hname _ => exact absurd ⟨_, hlink⟩ hname
      | link hlink' h' =>
          rw [hlink] at hlink'
          cases hlink'
          exact ih h'

/-! ### What `realpath` finds -/

/-- A component that leads to a place, or is a link there, resolves so. -/
theorem step_resolves {place real : List Name} {c : Component} {rest : Path} :
    (∀ next, tree.step place c = .leads next → tree.Resolves next rest real →
      tree.Resolves place (c :: rest) real) ∧
      ∀ target, tree.step place c = .follow target → tree.Resolves place (target ++ rest) real →
        tree.Resolves place (c :: rest) real := by
  cases c with
  | root =>
      refine ⟨?_, fun target h => by cases h⟩
      intro next h hreal
      cases h
      exact .root hreal
  | cur =>
      simp only [step]
      refine ⟨?_, fun target h => by split at h <;> cases h⟩
      intro next h hreal
      split at h
      · cases h
        exact .cur hreal
      · cases h
  | parent =>
      simp only [step]
      refine ⟨?_, fun target h => by split at h <;> cases h⟩
      intro next h hreal
      split at h
      · cases h
        exact .parent hreal
      · cases h
  | normal name =>
      simp only [step]
      split
      · next entries hnode =>
          have hentry := node?_of_dir hnode name
          split
          · exact ⟨fun next h => (by cases h), fun target h => (by cases h)⟩
          · next target hfound =>
              rw [hfound] at hentry
              refine ⟨fun next h => (by cases h), ?_⟩
              intro target' h hreal
              cases h
              exact .link hentry hreal
          · next node hlink hfound =>
              rw [hfound] at hentry
              refine ⟨?_, fun target h => (by cases h)⟩
              intro next h hreal
              cases h
              refine .entry ?_ hreal
              rintro ⟨target, htarget⟩
              rw [hentry] at htarget
              exact hlink target (Option.some.inj htarget)
      · exact ⟨fun next h => (by cases h), fun target h => (by cases h)⟩

/-- A walk over two paths, one after the other. -/
theorem walk_append (place : List Name) (path rest : Path) :
    tree.walk place (path ++ rest) =
      match tree.walk place path with
      | .arrived mid => tree.walk mid rest
      | .link mid ahead => .link mid (ahead ++ rest)
      | .failed why => .failed why := by
  induction path generalizing place with
  | nil => rfl
  | cons c path ih =>
      rw [List.cons_append, walk, walk]
      cases tree.step place c with
      | leads next => exact ih next
      | follow target => simp only [List.append_assoc]
      | fails why => rfl

theorem walk_arrives {place real : List Name} {path : Path}
    (h : tree.walk place path = .arrived real) : tree.Resolves place path real := by
  induction path generalizing place with
  | nil =>
      cases h
      exact .done _
  | cons c path ih =>
      rw [walk] at h
      split at h
      · next next hstep => exact step_resolves.1 next hstep (ih h)
      · cases h
      · cases h

/-- What follows a walk leads where the whole does. -/
theorem walk_follows {place mid real : List Name} {path rest : Path}
    (h : tree.walk place path = .link mid rest) (hreal : tree.Resolves mid rest real) :
    tree.Resolves place path real := by
  induction path generalizing place with
  | nil => cases h
  | cons c path ih =>
      rw [walk] at h
      split at h
      · next next hstep => exact step_resolves.1 next hstep (ih h)
      · next target hstep =>
          obtain ⟨rfl, rfl⟩ := Walked.link.inj h
          exact step_resolves.2 target hstep hreal
      · cases h

theorem realpath_arrived {place real : List Name} {path : Path}
    (h : tree.walk place path = .arrived real) (links : ℕ) :
    tree.realpath links place path = .ok real := by
  rw [realpath.eq_def, h]

theorem realpath_failed {place : List Name} {path : Path} {why : Unresolved}
    (h : tree.walk place path = .failed why) (links : ℕ) :
    tree.realpath links place path = .error why := by
  rw [realpath.eq_def, h]

theorem realpath_loop {place mid : List Name} {path rest : Path}
    (h : tree.walk place path = .link mid rest) : tree.realpath 0 place path = .error .loop := by
  rw [realpath.eq_def, h]

theorem realpath_link {place mid : List Name} {path rest : Path}
    (h : tree.walk place path = .link mid rest) (links : ℕ) :
    tree.realpath (links + 1) place path = tree.realpath links mid rest := by
  rw [realpath.eq_def, h]

theorem realpath_congr {place place' : List Name} {path path' : Path}
    (h : tree.walk place path = tree.walk place' path') (links : ℕ) :
    tree.realpath links place path = tree.realpath links place' path' := by
  rw [realpath.eq_def, h, ← realpath.eq_def]

/-- What is found has been walked to, through so many links. -/
theorem realpath_ok {links : ℕ} {place real : List Name} {path : Path}
    (h : tree.realpath links place path = .ok real) :
    tree.walk place path = .arrived real ∨
      ∃ fewer mid rest, links = fewer + 1 ∧ tree.walk place path = .link mid rest ∧
        tree.realpath fewer mid rest = .ok real := by
  cases hwalk : tree.walk place path with
  | arrived mid =>
      rw [realpath_arrived hwalk] at h
      cases h
      exact Or.inl rfl
  | failed why =>
      rw [realpath_failed hwalk] at h
      cases h
  | link mid rest =>
      cases links with
      | zero =>
          rw [realpath_loop hwalk] at h
          cases h
      | succ links =>
          rw [realpath_link hwalk] at h
          exact Or.inr ⟨links, mid, rest, rfl, rfl, h⟩

theorem realpath_resolves {links : ℕ} {place real : List Name} {path : Path}
    (h : tree.realpath links place path = .ok real) : tree.Resolves place path real := by
  induction links generalizing place path with
  | zero =>
      rcases realpath_ok h with hwalk | ⟨_, _, _, hlinks, _⟩
      · exact walk_arrives hwalk
      · cases hlinks
  | succ links ih =>
      rcases realpath_ok h with hwalk | ⟨fewer, mid, rest, hlinks, hwalk, hrest⟩
      · exact walk_arrives hwalk
      · cases hlinks
        exact walk_follows hwalk (ih hrest)

/-- Where the start of a path fails, the path fails the same way; otherwise the rest goes on from
there. -/
theorem realpath_append (links : ℕ) (place : List Name) (path rest : Path) :
    (∀ why, tree.realpath links place path = .error why →
      tree.realpath links place (path ++ rest) = .error why) ∧
      ∀ mid, tree.realpath links place path = .ok mid →
        ∃ links', tree.realpath links place (path ++ rest) = tree.realpath links' mid rest := by
  induction links generalizing place path with
  | zero =>
      have hboth := tree.walk_append place path rest
      cases hwalk : tree.walk place path with
      | arrived mid =>
          rw [hwalk] at hboth
          rw [realpath_arrived hwalk]
          refine ⟨fun why h => (by cases h), ?_⟩
          intro mid' h
          cases h
          exact ⟨0, realpath_congr hboth 0⟩
      | link mid ahead =>
          rw [hwalk] at hboth
          rw [realpath_loop hwalk, realpath_loop hboth]
          exact ⟨fun why h => h, fun mid h => by cases h⟩
      | failed why =>
          rw [hwalk] at hboth
          rw [realpath_failed hwalk, realpath_failed hboth]
          exact ⟨fun why h => h, fun mid h => by cases h⟩
  | succ links ih =>
      have hboth := tree.walk_append place path rest
      cases hwalk : tree.walk place path with
      | arrived mid =>
          rw [hwalk] at hboth
          rw [realpath_arrived hwalk]
          refine ⟨fun why h => (by cases h), ?_⟩
          intro mid' h
          cases h
          exact ⟨links + 1, realpath_congr hboth _⟩
      | link mid ahead =>
          rw [hwalk] at hboth
          rw [realpath_link hwalk, realpath_link hboth]
          exact ih mid ahead
      | failed why =>
          rw [hwalk] at hboth
          rw [realpath_failed hwalk, realpath_failed hboth]
          exact ⟨fun why h => h, fun mid h => by cases h⟩

/-- A name is missing because there is no such entry, or because a link leads to nothing. -/
theorem missing_name {links : ℕ} {place : List Name} {name : Name}
    (h : tree.realpath links place [.normal name] = .error .missing) :
    tree.node? (place ++ [name]) = none ∨ tree.IsLink (place ++ [name]) := by
  have hwalk : tree.walk place [.normal name] ≠ .arrived (place ++ [name]) := by
    intro hwalk
    rw [realpath_arrived hwalk] at h
    cases h
  simp only [walk, step] at hwalk
  unfold IsLink
  rw [node?_append]
  cases hnode : tree.node? place with
  | none => exact Or.inl rfl
  | some node =>
      rw [hnode] at hwalk
      cases node with
      | file => exact Or.inl rfl
      | symlink target => exact Or.inl rfl
      | dir entries =>
          dsimp only [Option.bind_some, below] at hwalk ⊢
          cases hentry : entry? entries name with
          | none => exact Or.inl rfl
          | some node =>
              rw [hentry] at hwalk
              cases node with
              | symlink target => exact Or.inr ⟨target, rfl⟩
              | dir entries => exact absurd rfl hwalk
              | file => exact absurd rfl hwalk

end FileTree

end Paths
