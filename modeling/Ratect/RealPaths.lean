import Ratect.FileTree
import Ratect.HostPaths

/-! # Real locations

`real_path_as_far_as_it_exists` and `Boundary::check_path_allowed` (`include_trust.rs`) on a file
system that is a tree.  The loop takes a name off the end as long as the rest is not found, and so
cannot tell a name that is missing from a link to nothing: its result is where the path leads if and
only if no such link is on the way (`real_path_exact`). -/

namespace Ratect

open Paths (Path Name FileTree)

/-- A path from the root, by its names. -/
def pathOf (names : List Name) : Path := .root :: names.map .normal

/-- `std::fs::canonicalize` on a tree; so many links are followed and no more. -/
def FileTree.canonicalize (tree : FileTree) (links : ℕ) (path : Path) : Except FsError Path :=
  match tree.realpath links [] path with
  | .ok place => .ok (pathOf place)
  | .error .missing => .error .notFound
  | .error .notADirectory => .error (.other "Not a directory (os error 20)")
  | .error .loop => .error (.other "Too many levels of symbolic links (os error 40)")

/-- The machine whose file system is the tree. -/
def Machine.onTree (machine : Machine) (tree : FileTree) (links : ℕ) : Machine :=
  { machine with canonicalize := FileTree.canonicalize tree links }

/-- A link on the way leads to nothing: its directory is there, and it is not found. -/
def PassesDangling (tree : FileTree) (links : ℕ) (names : List Name) : Prop :=
  ∃ above name below place, names = above ++ name :: below ∧
    tree.realpath links [] (pathOf above) = .ok place ∧ tree.IsLink (place ++ [name]) ∧
    tree.realpath links [] (pathOf (above ++ [name])) = .error .missing

/-- What is found for a path is where it leads. -/
def LeadsWhereFound (machine : Machine) (tree : FileTree) (names : List Name) : Prop :=
  ∀ real, realPathAsFarAsItExists machine (pathOf names) = .ok real →
    ∃ place, real = pathOf place ∧ tree.Resolves [] (pathOf names) place

section loop

variable {machine : Machine} {tree : FileTree} {links : ℕ}

theorem pathOf_append (names names' : List Name) :
    pathOf (names ++ names') = pathOf names ++ names'.map .normal := by
  unfold pathOf
  rw [List.map_append]
  rfl

theorem rooted_pathOf (names : List Name) : Paths.Rooted (pathOf names) := ⟨names, rfl⟩

theorem parent_pathOf (names : List Name) (name : Name) :
    Paths.parent (pathOf (names ++ [name])) = some (pathOf names) := by
  rw [pathOf_append]
  unfold Paths.parent
  simp

theorem fileName_pathOf (names : List Name) (name : Name) :
    Paths.fileName (pathOf (names ++ [name])) = some name := by
  rw [pathOf_append]
  unfold Paths.fileName
  simp

/-- The names taken off are put back onto what was found. -/
theorem foldl_join (place tail : List Name) :
    tail.foldl (fun real part => Paths.join real [.normal part]) (pathOf place) =
      pathOf (place ++ tail) := by
  induction tail generalizing place with
  | nil => rw [List.append_nil, List.foldl_nil]
  | cons name tail ih =>
      rw [List.foldl_cons, (rooted_pathOf place).join, ← List.map_singleton, ← pathOf_append, ih]
      simp

theorem canonicalize_ok {names place : List Name}
    (h : tree.realpath links [] (pathOf names) = .ok place) :
    (machine.onTree tree links).canonicalize (pathOf names) = .ok (pathOf place) := by
  show FileTree.canonicalize tree links (pathOf names) = _
  unfold FileTree.canonicalize
  rw [h]

theorem canonicalize_missing {names : List Name}
    (h : tree.realpath links [] (pathOf names) = .error .missing) :
    (machine.onTree tree links).canonicalize (pathOf names) = .error .notFound := by
  show FileTree.canonicalize tree links (pathOf names) = _
  unfold FileTree.canonicalize
  rw [h]

/-- What the loop returns: the real location of as much as is found, with the names below it, the
first of which is not found. -/
theorem realPathFrom_ok {path real : Path} {rounds : ℕ} {names tail : List Name}
    (h : realPathFrom (machine.onTree tree links) path rounds (pathOf names) tail = .ok real)
    (hrounds : names.length < rounds) :
    ∃ above below place,
      names = above ++ below ∧ tree.realpath links [] (pathOf above) = .ok place ∧
      real = pathOf (place ++ below ++ tail) ∧
      ∀ name rest, below = name :: rest →
        tree.realpath links [] (pathOf (above ++ [name])) = .error .missing := by
  induction names using List.reverseRecOn generalizing rounds tail with
  | nil =>
      obtain ⟨rounds, rfl⟩ : ∃ k, rounds = k + 1 := ⟨rounds - 1, by simp at hrounds; omega⟩
      have hroot : tree.realpath links [] (pathOf []) = .ok [] :=
        FileTree.realpath_arrived rfl links
      rw [realPathFrom, canonicalize_ok hroot] at h
      dsimp only at h
      rw [foldl_join] at h
      cases h
      exact ⟨[], [], [], rfl, hroot, by simp, by simp⟩
  | append_singleton names name ih =>
      rw [List.length_append, List.length_singleton] at hrounds
      obtain ⟨rounds, rfl⟩ : ∃ k, rounds = k + 1 := ⟨rounds - 1, by omega⟩
      rw [realPathFrom] at h
      cases hfound : tree.realpath links [] (pathOf (names ++ [name])) with
      | ok place =>
          rw [canonicalize_ok hfound] at h
          dsimp only at h
          rw [foldl_join] at h
          cases h
          exact ⟨names ++ [name], [], place, by simp, hfound, by simp, by simp⟩
      | error why =>
          cases why with
          | missing =>
              rw [canonicalize_missing hfound, parent_pathOf, fileName_pathOf] at h
              obtain ⟨above, below, place, rfl, hplace, rfl, hfirst⟩ := ih h (by omega)
              refine ⟨above, below ++ [name], place, by simp, hplace, by simp, ?_⟩
              intro first rest hbelow
              cases below with
              | nil =>
                  obtain ⟨rfl, -⟩ := List.cons.inj hbelow
                  rwa [List.append_nil] at hfound
              | cons first' rest' =>
                  obtain ⟨rfl, -⟩ := List.cons.inj hbelow
                  exact hfirst _ rest' rfl
          | notADirectory =>
              have hcall : (machine.onTree tree links).canonicalize (pathOf (names ++ [name])) =
                  .error (.other "Not a directory (os error 20)") := by
                show FileTree.canonicalize tree links _ = _
                unfold FileTree.canonicalize
                rw [hfound]
              rw [hcall] at h
              cases h
          | loop =>
              have hcall : (machine.onTree tree links).canonicalize (pathOf (names ++ [name])) =
                  .error (.other "Too many levels of symbolic links (os error 40)") := by
                show FileTree.canonicalize tree links _ = _
                unfold FileTree.canonicalize
                rw [hfound]
              rw [hcall] at h
              cases h

/-- From the first name that is not found on, every name is kept as it is written. -/
theorem realPathFrom_kept {path : Path} {rounds : ℕ} {above below tail place : List Name}
    {name : Name} (hplace : tree.realpath links [] (pathOf above) = .ok place)
    (hmissing : tree.realpath links [] (pathOf (above ++ [name])) = .error .missing)
    (hrounds : above.length + below.length + 1 < rounds) :
    realPathFrom (machine.onTree tree links) path rounds (pathOf (above ++ name :: below)) tail =
      .ok (pathOf (place ++ name :: below ++ tail)) := by
  obtain ⟨rounds, rfl⟩ : ∃ k, rounds = k + 1 := ⟨rounds - 1, by omega⟩
  induction below using List.reverseRecOn generalizing rounds tail with
  | nil =>
      obtain ⟨rounds, rfl⟩ : ∃ k, rounds = k + 1 := ⟨rounds - 1, by simp at hrounds; omega⟩
      rw [realPathFrom, canonicalize_missing hmissing, parent_pathOf, fileName_pathOf]
      dsimp only
      rw [realPathFrom, canonicalize_ok hplace]
      dsimp only
      rw [foldl_join]
      simp
  | append_singleton below last ih =>
      rw [List.length_append, List.length_singleton] at hrounds
      have hsplit : above ++ name :: (below ++ [last]) =
          (above ++ name :: below) ++ [last] := by simp
      have hnot : tree.realpath links [] (pathOf (above ++ name :: below ++ [last])) =
          .error .missing := by
        have hparts : above ++ name :: below ++ [last] =
            (above ++ [name]) ++ (below ++ [last]) := by simp
        rw [hparts, pathOf_append]
        exact (FileTree.realpath_append links [] _ _).1 _ hmissing
      rw [hsplit, realPathFrom, canonicalize_missing hnot, parent_pathOf, fileName_pathOf]
      dsimp only
      obtain ⟨rounds, rfl⟩ : ∃ k, rounds = k + 1 := ⟨rounds - 1, by omega⟩
      rw [ih rounds (by omega)]
      simp

theorem normal_injective : Function.Injective Paths.Component.normal :=
  fun _ _ h => Paths.Component.normal.inj h

theorem pathOf_injective {names names' : List Name}
    (h : pathOf names = pathOf names') : names = names' :=
  List.map_injective_iff.mpr normal_injective (List.cons.inj h).2

theorem startsWith_pathOf {names base : List Name} :
    Paths.startsWith (pathOf names) (pathOf base) = true ↔ base <+: names := by
  rw [Paths.startsWith_iff]
  unfold pathOf
  rw [List.cons_prefix_cons]
  constructor
  · rintro ⟨-, h⟩
    have htake := List.prefix_iff_eq_take.mp h
    rw [← List.map_take, List.length_map] at htake
    exact List.prefix_iff_eq_take.mpr (List.map_injective_iff.mpr normal_injective htake)
  · intro h
    exact ⟨rfl, h.map _⟩

/-- What is found is where the path leads, unless a link on the way leads to nothing. -/
theorem leadsWhereFound_iff (names : List Name) :
    LeadsWhereFound (machine.onTree tree links) tree names ↔ ¬ PassesDangling tree links names := by
  have hlength : (pathOf names).length + 1 = names.length + 2 := by simp [pathOf]
  constructor
  · rintro h ⟨above, name, below, place, rfl, hplace, hlink, hmissing⟩
    have hkept : realPathAsFarAsItExists (machine.onTree tree links)
        (pathOf (above ++ name :: below)) =
        .ok (pathOf (place ++ name :: below ++ [])) := by
      unfold realPathAsFarAsItExists
      apply realPathFrom_kept hplace hmissing
      rw [hlength, List.length_append, List.length_cons]
      omega
    obtain ⟨place', hreal, hresolves⟩ := h _ hkept
    rw [← pathOf_injective hreal] at hresolves
    exact hresolves.linkless FileTree.linkless_root (place ++ [name]) (by simp) hlink
  · intro hnot real hreal
    unfold realPathAsFarAsItExists at hreal
    obtain ⟨above, below, place, rfl, hplace, rfl, hfirst⟩ :=
      realPathFrom_ok hreal (by rw [hlength]; omega)
    refine ⟨place ++ below, by simp, ?_⟩
    have habove := FileTree.realpath_resolves hplace
    rw [pathOf_append]
    apply habove.append
    cases below with
    | nil =>
        rw [List.append_nil]
        exact .done place
    | cons name below =>
        have hmissing := hfirst name below rfl
        have hname := hmissing
        rw [pathOf_append] at hname
        obtain ⟨links', hlinks'⟩ :=
          (FileTree.realpath_append links [] (pathOf above) _).2 place hplace
        rw [hlinks'] at hname
        have hnone : tree.node? (place ++ [name]) = none := by
          rcases FileTree.missing_name hname with hnone | hlink
          · exact hnone
          · exact absurd ⟨above, name, below, place, rfl, hplace, hlink, hmissing⟩ hnot
        have hnolink : ¬ tree.IsLink (place ++ [name]) := by
          rintro ⟨target, htarget⟩
          rw [hnone] at htarget
          cases htarget
        have hrest := FileTree.resolves_missing hnone below
        rw [List.append_assoc, List.singleton_append] at hrest
        exact .entry hnolink hrest

end loop

/-! ### What the check accepts -/

/-- A path leads into one of two directories, wherever these lead. -/
def LeadsInside (tree : FileTree) (names repo project : List Name) : Prop :=
  ∀ place, tree.Resolves [] (pathOf names) place →
    ∃ root ∈ [repo, project], ∃ base, tree.Resolves [] (pathOf root) base ∧ base <+: place

/-- Of a boundary that contains its bundle, the check has found both paths, one within the other. -/
theorem checkPathAllowed_ok {machine : Machine} {boundary : Boundary} {field : HostPathField}
    {names repo project : List Name} (htrust : boundary.bundle.trust.hostPaths = false)
    (hrepo : boundary.repoDir = pathOf repo)
    (h : boundary.checkPathAllowed machine (pathOf names) (pathOf project) field = .ok ()) :
    ∃ real, realPathAsFarAsItExists machine (pathOf names) = .ok real ∧
      ∃ root ∈ [repo, project], ∃ base,
      realPathAsFarAsItExists machine (pathOf root) = .ok base ∧
        Paths.startsWith real base = true := by
  have hfound : ∀ (path real : Path), boundary.realPath machine path = .ok real →
      realPathAsFarAsItExists machine path = .ok real := by
    intro path real hpath
    unfold Boundary.realPath at hpath
    split at hpath
    · next found =>
        cases hpath
        exact found
    · split at hpath
      · cases hpath
      · cases hpath
  unfold Boundary.checkPathAllowed at h
  dsimp only at h
  rw [(rooted_pathOf names).clean, htrust, if_neg (by simp)] at h
  split at h
  · cases h
  · obtain ⟨real, hreal, h⟩ := Except.bind_eq_ok.mp h
    obtain ⟨realRepo, hrealRepo, h⟩ := Except.bind_eq_ok.mp h
    refine ⟨real, hfound _ _ hreal, ?_⟩
    split at h
    · next hinside =>
        rw [hrepo] at hrealRepo
        exact ⟨repo, by simp, realRepo, hfound _ _ hrealRepo, hinside⟩
    · obtain ⟨realProject, hrealProject, h⟩ := Except.bind_eq_ok.mp h
      split at h
      · next hinside => exact ⟨project, by simp, realProject, hfound _ _ hrealProject, hinside⟩
      · cases h

/-- On a file system of directories, files and links, what is found for a path is where it leads,
links to nothing included, if and only if no link to nothing is on its way.  A bundle's path is then
accepted only where it leads into the checkout or the project directory. -/
theorem real_path_exact (machine : Machine) (tree : FileTree) (links : ℕ) :
    (∀ names, LeadsWhereFound (machine.onTree tree links) tree names ↔
      ¬ PassesDangling tree links names) ∧
      ∀ (boundary : Boundary) names repo project field, boundary.bundle.trust.hostPaths = false →
        boundary.repoDir = pathOf repo →
          ((∀ n ∈ [names, repo, project], LeadsWhereFound (machine.onTree tree links) tree n) ∧
              (boundary.checkPathAllowed (machine.onTree tree links) (pathOf names)
                (pathOf project) field = .ok () →
                LeadsInside tree names repo project) ↔
            ∀ n ∈ [names, repo, project], ¬ PassesDangling tree links n) := by
  refine ⟨leadsWhereFound_iff, ?_⟩
  intro boundary names repo project field htrust hrepo
  constructor
  · intro h n hn
    exact (leadsWhereFound_iff n).mp (h.1 n hn)
  · intro h
    have hfound : ∀ n ∈ [names, repo, project],
        LeadsWhereFound (machine.onTree tree links) tree n :=
      fun n hn => (leadsWhereFound_iff n).mpr (h n hn)
    refine ⟨hfound, ?_⟩
    intro hok place hplace
    obtain ⟨real, hreal, root, hroot, base, hbase, hinside⟩ := checkPathAllowed_ok htrust hrepo hok
    obtain ⟨place', rfl, hplace'⟩ := hfound names (by simp) real hreal
    obtain ⟨base', rfl, hbase'⟩ := hfound root (List.mem_cons_of_mem _ hroot) base hbase
    obtain rfl := hplace.unique hplace'
    exact ⟨root, hroot, base', hbase', startsWith_pathOf.mp hinside⟩

/-- The name of a directory entry, from its text. -/
def nameOf (text : Text) (h : Paths.IsName text := by decide) : Name := ⟨text, h⟩

/-- A checkout `/c` with a link `out` to `/etc/job`, which is not there, and a project `/p`. -/
def linkToNothing : FileTree where
  entries := [(nameOf ['c'], .dir [(nameOf ['o'], .symlink (pathOf [nameOf ['e'], nameOf ['j']]))]),
    (nameOf ['e'], .dir []), (nameOf ['p'], .dir [])]

/-- The boundary of that checkout; its bundle is granted nothing. -/
def checkoutBoundary : Boundary := ⟨pathOf [nameOf ['c']], ⟨⟨⟨"a"⟩, "1"⟩, .NONE⟩⟩

/-- A path through the link is found to be itself and accepted, though it leads out of both
directories. -/
theorem link_to_nothing_accepted :
    ¬ LeadsWhereFound ((Machine.inMemory [.root] [.root] [] []).onTree linkToNothing 40)
      linkToNothing
        [nameOf ['c'], nameOf ['o']] ∧
      checkoutBoundary.checkPathAllowed
        ((Machine.inMemory [.root] [.root] [] []).onTree linkToNothing 40)
        (pathOf [nameOf ['c'], nameOf ['o']]) (pathOf [nameOf ['p']]) .volumes = .ok () ∧
      ¬ LeadsInside linkToNothing [nameOf ['c'], nameOf ['o']] [nameOf ['c']] [nameOf ['p']] := by
  have hlink : PassesDangling linkToNothing 40 [nameOf ['c'], nameOf ['o']] :=
    ⟨[nameOf ['c']], nameOf ['o'], [], [nameOf ['c']], rfl, by
      decide +kernel, ⟨_, rfl⟩, by decide +kernel⟩
  have hroots : ∀ root ∈ [[nameOf ['c']], [nameOf ['p']]],
      linkToNothing.realpath 0 [] (pathOf root) = .ok root ∧
        ¬ root <+: [nameOf ['e'], nameOf ['j']] := by
    decide +kernel
  refine ⟨fun h => (leadsWhereFound_iff _).mp h hlink, by decide +kernel, ?_⟩
  intro h
  have hplace : linkToNothing.Resolves [] (pathOf [nameOf ['c'], nameOf ['o']])
      [nameOf ['e'], nameOf ['j']] := by
    refine .root (.entry ?_ (.link rfl (.root (.entry ?_ (.entry ?_ (.done _))))))
    all_goals
      rintro ⟨target, htarget⟩
      cases htarget
  obtain ⟨root, hroot, base, hbase, hinside⟩ := h _ hplace
  obtain ⟨hreal, houtside⟩ := hroots root hroot
  rw [hbase.unique (FileTree.realpath_resolves hreal)] at hinside
  exact houtside hinside

end Ratect
