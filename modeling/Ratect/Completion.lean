import Ratect.LoadMerge
import Ratect.DepthFirst

/-! # Task names for shell completion

`task_names_for_completion` (`config.rs`) walks the includes depth-first without loading anything: a
file that cannot be read adds nothing, an include that the loader would refuse is skipped, and a Git
include counts only if its clone is in the cache.  A file is visited once, under the boundary it is
first reached with. -/

namespace Ratect

open Paths (Path)

section completion

variable (machine : Machine)

/-- `refuse_read`. -/
def refuseRead (check : Except LoadError Unit) : Bool :=
  match check with
  | .ok () => false
  | .error _ => true

/-- Where an include of a visited file points, unless it is skipped, and the boundary it carries. -/
def completionTarget (absolute : Path) (declaring : Option Boundary) :
    IncludeEntry → Option (Path × Option Boundary)
  | .file path =>
      match localIncludeTarget machine (containingDir absolute) path with
      | .error _ => none
      | .ok target => some (target, declaring)
  | .git repo gitRef path allowHostPaths allowNestedGitIncludes reviewed =>
      let bundle := declaring.map Boundary.bundle
      let asked : Grants := ⟨allowHostPaths, allowNestedGitIncludes⟩
      if refuseRead (checkDialect asked reviewed.isSome bundle ""
          (if ConfigFormat.native.readsAsBatect absolute then some .owned else none)
            repo .native) then none
      else if refuseRead (checkMayDeclareGit (restricting bundle .native) repo) then none
      else
        match machine.cachedWorkingCopy repo gitRef with
        | none => none
        | some repoDir =>
            let boundary : Boundary := ⟨repoDir, .granted bundle ⟨repo, gitRef⟩ asked⟩
            let candidates := (gitCandidates .native path).filterMap fun candidate =>
              (absolutePath machine (Paths.join repoDir (Paths.ofText candidate))).toOption
            (candidates.find? fun candidate =>
              !refuseRead (boundary.checkContains candidate) && machine.isFile candidate).map
                fun bundleFile => (bundleFile, some boundary)

/-- The file that an include of a visited file leads to, unless it is skipped. -/
def completionNext (absolute : Path) (declaring : Option Boundary) (entry : IncludeEntry) :
    Option (Path × Option Boundary) := do
  let (target, carried) ← completionTarget machine absolute declaring entry
  let nextFile ← (absolutePath machine target).toOption
  if refuseRead (boundaryContains machine carried nextFile) then none else some (nextFile, carried)

/-- What a completion has collected, and the files it has been to. -/
structure Completion where
  names : Finset String
  visited : List Path

/-- `collect_completion_task_names`, at most so deep. -/
def collectCompletionTaskNames : ℕ → Completion → Path × Option Boundary → Option Completion
  | 0, _, _ => none
  | depth + 1, c, (configFile, declaring) =>
      match absolutePath machine configFile with
      | .error _ => some c
      | .ok absolute =>
          if absolute ∈ c.visited then some c
          else
            match ConfigFormat.native.parse machine absolute none with
            | .error _ => some { c with visited := c.visited ++ [absolute] }
            | .ok file =>
                (file.includes.filterMap (completionNext machine absolute declaring)).foldlM
                  (collectCompletionTaskNames depth)
                  ⟨c.names ∪ file.tasks.keys.toFinset, c.visited ++ [absolute]⟩

/-- `task_names_for_completion`: the names in order. -/
def taskNamesForCompletion (depth : ℕ) (configFile : Path) : Option (List String) :=
  (collectCompletionTaskNames machine depth ⟨∅, []⟩ (configFile, none)).map fun c =>
    c.names.sort (· ≤ ·)

end completion

/-! ### What a completion follows -/

section follows

variable {machine : Machine}

/-- A path that was made absolute stays as it is. -/
theorem absolutePath_absolute
    (hcwd : ∀ dir, machine.currentDir = .ok dir → Paths.isAbsolute dir = true) {path q : Path}
    (h : absolutePath machine path = .ok q) : absolutePath machine q = .ok q := by
  unfold absolutePath at h ⊢
  split at h
  · cases h
  · next dir hdir =>
      have hq : Paths.isAbsolute q = true := by
        rw [← Except.ok.inj h]
        exact Paths.isAbsolute_clean (Paths.isAbsolute_join (hcwd dir hdir))
      rw [Paths.join_absolute hq, ← Except.ok.inj h, Paths.clean_clean]

theorem fileAt_eq_some {path q : Path} (h : fileAt machine path = some q) :
    absolutePath machine path = .ok q ∧ machine.isFile q = true := by
  unfold fileAt at h
  split at h
  · cases h
  · next resolved hresolved =>
      split at h
      · next hfile =>
          cases h
          exact ⟨hresolved, hfile⟩
      · cases h

theorem refuseRead_eq_false {check : Except LoadError Unit} :
    refuseRead check = false ↔ check = .ok () := by
  unfold refuseRead
  cases check with
  | error e => simp
  | ok u => simp

/-- An include may be followed from a file that was reached with this boundary. -/
def Allowed (machine : Machine) (boundary : Option Boundary) (entry : IncludeEntry)
    (q : Path) : Prop :=
  Permitted .native boundary entry ∧
    boundaryContains machine (carriedBoundary machine boundary entry) q = .ok ()

/-- The first candidate that is a file is the one found, if it is contained. -/
theorem find?_candidates {dir q : Path} {candidates : List Text} {boundary : Boundary}
    (h : candidates.findSome?
      (fun candidate => fileAt machine (Paths.join dir (Paths.ofText candidate))) =
      some q) (hcontained : boundary.checkContains q = .ok ()) :
    ((candidates.filterMap fun candidate =>
        (absolutePath machine (Paths.join dir (Paths.ofText candidate))).toOption).find?
          fun candidate =>
          !refuseRead (boundary.checkContains candidate) && machine.isFile candidate) = some q := by
  induction candidates with
  | nil => cases h
  | cons candidate rest ih =>
      rw [List.findSome?_cons] at h
      cases hpath : absolutePath machine (Paths.join dir (Paths.ofText candidate)) with
      | error e =>
          have hfile : fileAt machine (Paths.join dir (Paths.ofText candidate)) = none := by
            unfold fileAt
            rw [hpath]
          rw [hfile] at h
          rw [List.filterMap_cons_none (by rw [hpath]; rfl)]
          exact ih h
      | ok r =>
          have hfile : fileAt machine (Paths.join dir (Paths.ofText candidate)) =
              if machine.isFile r then some r else none := by
            unfold fileAt
            rw [hpath]
          rw [List.filterMap_cons_some (by rw [hpath]; rfl), List.find?_cons]
          by_cases hr : machine.isFile r = true
          · rw [hfile, if_pos hr] at h
            obtain rfl := Option.some.inj h
            rw [refuseRead_eq_false.mpr hcontained, hr]
            rfl
          · rw [hfile, if_neg hr] at h
            rw [Bool.not_eq_true] at hr
            rw [hr, Bool.and_false]
            exact ih h

theorem checkDialect_of_inDialect {format : ConfigFormat} {path : Path} {repo : Remote}
    {gitRef : String} {file : Option Text} {hostPaths : Bool} {nestedGit : Option Bool}
    {reviewed : Option String}
    (h : InDialect format path (.git repo gitRef file hostPaths nestedGit reviewed))
    (bundle : Option Bundle) (name : String) (place : BatectFile) :
    checkDialect ⟨hostPaths, nestedGit⟩ reviewed.isSome bundle name
      (if format.readsAsBatect path then some place else none) repo format = .ok () := by
  by_cases hbatect : format.readsAsBatect path = true
  · obtain ⟨rfl, rfl⟩ := h hbatect
    rw [if_pos hbatect]
    rfl
  · rw [if_neg hbatect]
    rfl

/-- A clone is in the cache, where the loader would find it. -/
def InCache (machine : Machine) (entry : IncludeEntry) : Prop :=
  ∀ remote ∈ entry.remote, machine.cachedWorkingCopy remote.1 remote.2 =
    (machine.ensureCached remote.1 remote.2).toOption

/-- Where an include that the loader followed points for a completion, if it may be declared. -/
theorem completionTarget_iff {declaring q : Path} {loaded : Option Boundary} {entry : IncludeEntry}
    (boundary : Option Boundary)
    (hcwd : ∀ dir, machine.currentDir = .ok dir → Paths.isAbsolute dir = true)
    (hfollowed : Followed machine .native declaring loaded entry q)
    (hcached : InCache machine entry) :
    ∃ target, absolutePath machine target = .ok q ∧ ∀ r,
      completionTarget machine declaring boundary entry = some r ↔
        r = (target, carriedBoundary machine boundary entry) ∧
          Permitted .native boundary entry := by
  have htarget := hfollowed.target
  cases entry with
  | file path =>
      unfold entryTarget at htarget
      cases hlocal : localIncludeTarget machine (containingDir declaring) path with
      | error e =>
          simp only [hlocal] at htarget
          cases htarget
      | ok target =>
          simp only [hlocal] at htarget
          refine ⟨target, (fileAt_eq_some htarget).1, ?_⟩
          intro r
          unfold completionTarget
          simp only [hlocal, Option.some.injEq, carriedBoundary, Permitted, and_true]
          exact eq_comm
  | git repo gitRef path hostPaths nestedGit reviewed =>
      obtain ⟨dir, hdir, hfind⟩ := entryTarget_git.mp htarget
      have hcopy : machine.cachedWorkingCopy repo gitRef = some dir := by
        rw [hcached (repo, gitRef) rfl, hdir]
        rfl
      have hq : absolutePath machine q = .ok q := by
        obtain ⟨candidate, -, hcandidate⟩ := List.exists_of_findSome?_eq_some hfind
        exact absolutePath_absolute hcwd (fileAt_eq_some hcandidate).1
      have hcontained := hfollowed.contained
      rw [carriedBoundary_git.mpr ⟨dir, hdir, rfl⟩] at hcontained
      obtain ⟨_, hlexical, -⟩ := Except.bind_eq_ok.mp hcontained
      refine ⟨q, hq, ?_⟩
      intro r
      -- Containment is a matter of the clone's directory alone.
      have hinside : (⟨dir, .granted (boundary.map Boundary.bundle) ⟨repo, gitRef⟩
          ⟨hostPaths, nestedGit⟩⟩ : Boundary).checkContains q = .ok () := by
        unfold Boundary.checkContains at hlexical ⊢
        split at hlexical
        · next h => rw [if_pos h]
        · cases hlexical
      have hfound := find?_candidates hfind hinside
      have hdialect :=
        checkDialect_of_inDialect hfollowed.dialect (boundary.map Boundary.bundle) "" .owned
      rw [carriedBoundary_git.mpr ⟨dir, hdir, rfl⟩]
      unfold completionTarget
      simp only [refuseRead_eq_false.mpr hdialect, hcopy, hfound, Bool.false_eq_true, if_false,
        Option.map_some]
      by_cases hmay : Permitted .native boundary
        (.git repo gitRef path hostPaths nestedGit reviewed)
      · rw [refuseRead_eq_false.mpr hmay]
        simp only [Bool.false_eq_true, if_false, Option.some.injEq, hmay, and_true]
        exact eq_comm
      · have hrefused : refuseRead
          (checkMayDeclareGit (restricting (boundary.map Boundary.bundle) .native) repo) =
            true := by
          rw [← Bool.not_eq_false]
          exact fun hfalse => hmay (refuseRead_eq_false.mp hfalse)
        rw [hrefused]
        simp [hmay]

/-- What the loader followed, a completion follows where it is allowed, to the same file. -/
theorem completionNext_iff {declaring q : Path} {loaded boundary : Option Boundary}
    {entry : IncludeEntry}
    (hcwd : ∀ dir, machine.currentDir = .ok dir → Paths.isAbsolute dir = true)
    (hfollowed : Followed machine .native declaring loaded entry q)
    (hcached : InCache machine entry) {r : Path × Option Boundary} :
    completionNext machine declaring boundary entry = some r ↔
      r = (q, carriedBoundary machine boundary entry) ∧ Allowed machine boundary entry q := by
  obtain ⟨target, habsolute, htarget⟩ := completionTarget_iff boundary hcwd hfollowed hcached
  unfold completionNext Allowed
  simp only [Option.bind_eq_bind, Option.bind_eq_some_iff, htarget]
  constructor
  · rintro ⟨_, ⟨rfl, hmay⟩, nextFile, hnext, h⟩
    rw [habsolute] at hnext
    obtain rfl : q = nextFile := Option.some.inj hnext
    split at h
    · cases h
    · next hcontains =>
        rw [Bool.not_eq_true, refuseRead_eq_false] at hcontains
        exact ⟨(Option.some.inj h).symm, hmay, hcontains⟩
  · rintro ⟨rfl, hmay, hcontains⟩
    refine ⟨_, ⟨rfl, hmay⟩, q, by rw [habsolute]; rfl, ?_⟩
    rw [refuseRead_eq_false.mpr hcontains]
    rfl

end follows

/-! ### The walk over every include -/

section order

variable (machine : Machine) (root : LoadedFile)

/-- The files that a file's includes point to, with the boundaries they carry, whatever is
allowed. -/
def includesOf (n : Path × Option Boundary) : List (Path × Option Boundary) :=
  match contentsAt machine .native root n.1 with
  | none => []
  | some file => file.includes.filterMap fun entry =>
      (entryTarget machine .native n.1 entry).map fun q => (q, carriedBoundary machine n.2 entry)

/-- Every include of a file is allowed under the boundary it was reached with. -/
def AllAllowed (n : Path × Option Boundary) : Prop :=
  ∀ file ∈ contentsAt machine .native root n.1, ∀ entry ∈ file.includes,
    ∀ q ∈ entryTarget machine .native n.1 entry, Allowed machine n.2 entry q

/-- Depth-first over every include, each file is first reached with a boundary that allows all of
its includes. -/
def AllowedDepthFirst : Prop :=
  ∃ order, DepthFirst.Walk (includesOf machine root) Prod.fst [] [(root.path, none)] order ∧
    ∀ n ∈ order, AllAllowed machine root n

end order

/-! ### Agreement with the loader -/

section agreement

variable {machine : Machine} {root : LoadedFile} {files : List LoadedFile}

/-- What a completion relies on: the current directory is absolute, the clones of the project are in
the cache, and each loaded file is read as it was loaded. -/
structure Offline (machine : Machine) (files : List LoadedFile) : Prop where
  absolute : ∀ dir, machine.currentDir = .ok dir → Paths.isAbsolute dir = true
  cached : ∀ d ∈ files, ∀ entry ∈ d.file.includes, InCache machine entry
  unchanged : ∀ f ∈ files, ConfigFormat.native.parse machine f.path none = .ok f.file
  located : ∀ f ∈ files, absolutePath machine f.path = .ok f.path

/-- The includes that a completion follows from a loaded file lead to loaded files. -/
theorem completionNext_loaded (h : LoadedTree machine .native root files)
    (hoffline : Offline machine files) {d : LoadedFile} (hd : d ∈ files)
    {boundary : Option Boundary} {n : Path × Option Boundary}
    (hn : n ∈ d.file.includes.filterMap (completionNext machine d.path boundary)) :
    n.1 ∈ files.map LoadedFile.path := by
  obtain ⟨entry, hentry, hnext⟩ := List.mem_filterMap.mp hn
  obtain ⟨f, hf, hfollowed, -⟩ := h.delivered d hd entry hentry
  obtain ⟨rfl, -⟩ :=
    (completionNext_iff hoffline.absolute hfollowed (hoffline.cached d hd entry hentry)).mp hnext
  exact List.mem_map_of_mem hf

/-- Where everything is allowed, a completion follows every include. -/
theorem completionNext_all (h : LoadedTree machine .native root files)
    (hoffline : Offline machine files) {d : LoadedFile} (hd : d ∈ files)
    {boundary : Option Boundary} (hallowed : AllAllowed machine root (d.path, boundary)) :
    d.file.includes.filterMap (completionNext machine d.path boundary) =
      includesOf machine root (d.path, boundary) := by
  have hcontents := h.contents hd
  unfold includesOf
  simp only [hcontents]
  apply List.filterMap_congr
  intro entry hentry
  obtain ⟨f, -, hfollowed, -⟩ := h.delivered d hd entry hentry
  rw [hfollowed.target, Option.map_some,
    completionNext_iff hoffline.absolute hfollowed (hoffline.cached d hd entry hentry)]
  exact ⟨rfl, hallowed d.file hcontents entry hentry f.path hfollowed.target⟩

/-- One file of a completion that was not visited yet. -/
theorem collect_visit (hoffline : Offline machine files) {d : LoadedFile} (hd : d ∈ files)
    {c : Completion} (hc : d.path ∉ c.visited) (boundary : Option Boundary) (depth : ℕ) :
    collectCompletionTaskNames machine (depth + 1) c (d.path, boundary) =
      (d.file.includes.filterMap (completionNext machine d.path boundary)).foldlM
        (collectCompletionTaskNames machine depth)
        ⟨c.names ∪ d.file.tasks.keys.toFinset, c.visited ++ [d.path]⟩ := by
  rw [collectCompletionTaskNames]
  simp only [hoffline.located d hd, if_neg hc, hoffline.unchanged d hd]

theorem collect_skip (hoffline : Offline machine files) {d : LoadedFile} (hd : d ∈ files)
    {c : Completion} (hc : d.path ∈ c.visited) (boundary : Option Boundary) (depth : ℕ) :
    collectCompletionTaskNames machine (depth + 1) c (d.path, boundary) = some c := by
  rw [collectCompletionTaskNames]
  simp only [hoffline.located d hd, if_pos hc]

/-- A completion ends, and collects names of loaded files only. -/
theorem collect_within (h : LoadedTree machine .native root files)
    (hoffline : Offline machine files) {depth : ℕ} {c : Completion}
    {todo : List (Path × Option Boundary)} (htodo : ∀ n ∈ todo, n.1 ∈ files.map LoadedFile.path)
    (hdepth : Loop.unseen (files.map LoadedFile.path) c.visited < depth)
    (hnames : ∀ name ∈ c.names, ∃ f ∈ files, name ∈ f.file.tasks.keys) :
    ∃ c', todo.foldlM (collectCompletionTaskNames machine depth) c = some c' ∧
      c.visited ⊆ c'.visited ∧ ∀ name ∈ c'.names, ∃ f ∈ files, name ∈ f.file.tasks.keys := by
  induction depth generalizing c todo with
  | zero => omega
  | succ depth ih =>
      induction todo generalizing c with
      | nil => exact ⟨c, rfl, List.Subset.refl _, hnames⟩
      | cons n todo ihtodo =>
          obtain ⟨d, hd, hpath⟩ := List.mem_map.mp (htodo n List.mem_cons_self)
          have hfirst : ∃ c₁, collectCompletionTaskNames machine (depth + 1) c n = some c₁ ∧
              c.visited ⊆ c₁.visited ∧
                ∀ name ∈ c₁.names, ∃ f ∈ files, name ∈ f.file.tasks.keys := by
            obtain ⟨path, boundary⟩ := n
            obtain rfl : d.path = path := hpath
            by_cases hc : d.path ∈ c.visited
            · exact ⟨c, collect_skip hoffline hd hc boundary depth, List.Subset.refl _, hnames⟩
            · rw [collect_visit hoffline hd hc]
              have hlt := Loop.unseen_lt (List.mem_map_of_mem hd) hc
              obtain ⟨c₁, hrun, hsub, hnames₁⟩ := ih
                (c := ⟨c.names ∪ d.file.tasks.keys.toFinset, c.visited ++ [d.path]⟩)
                (fun m hm => completionNext_loaded h hoffline hd hm) (by simp only; omega) (by
                  intro name hname
                  rcases Finset.mem_union.mp hname with hname | hname
                  · exact hnames name hname
                  · exact ⟨d, hd, List.mem_toFinset.mp hname⟩)
              exact ⟨c₁, hrun, List.Subset.trans (List.subset_append_left _ _) hsub, hnames₁⟩
          obtain ⟨c₁, hrun, hsub, hnames₁⟩ := hfirst
          have hle := Loop.unseen_le (files.map LoadedFile.path) hsub
          obtain ⟨c', hrun', hsub', hnames'⟩ := ihtodo (c := c₁)
            (fun m hm => htodo m (List.mem_cons_of_mem _ hm)) (by omega) hnames₁
          refine ⟨c', ?_, List.Subset.trans hsub hsub', hnames'⟩
          rw [List.foldlM_cons, hrun]
          exact hrun'

/-- The task names of the files that were visited. -/
def namesOf (machine : Machine) (root : LoadedFile)
    (seen : List (Path × Option Boundary)) : Finset String :=
  (seen.flatMap fun n => ((contentsAt machine .native root n.1).map fun file =>
    file.tasks.keys).getD []).toFinset

theorem namesOf_append (h : LoadedTree machine .native root files) {d : LoadedFile} (hd : d ∈ files)
    (boundary : Option Boundary) (seen : List (Path × Option Boundary)) :
    namesOf machine root (seen ++ [(d.path, boundary)]) =
      namesOf machine root seen ∪ d.file.tasks.keys.toFinset := by
  unfold namesOf
  rw [List.flatMap_append, List.toFinset_append, List.flatMap_singleton, h.contents hd]
  rfl

/-- What includes point to is loaded. -/
theorem includesOf_loaded (h : LoadedTree machine .native root files) {d : LoadedFile}
    (hd : d ∈ files) {boundary : Option Boundary} {n : Path × Option Boundary}
    (hn : n ∈ includesOf machine root (d.path, boundary)) : n.1 ∈ files.map LoadedFile.path := by
  unfold includesOf at hn
  simp only [h.contents hd] at hn
  obtain ⟨entry, hentry, hnext⟩ := List.mem_filterMap.mp hn
  obtain ⟨q, hq, rfl⟩ := Option.map_eq_some_iff.mp hnext
  obtain ⟨f, hf, hfollowed, -⟩ := h.delivered d hd entry hentry
  obtain rfl : f.path = q := Option.some.inj (hfollowed.target.symm.trans hq)
  exact List.mem_map_of_mem hf

/-- Where everything is allowed on the way, a completion is the walk over every include. -/
theorem collect_walk (h : LoadedTree machine .native root files) (hoffline : Offline machine files)
    {seen todo order : List (Path × Option Boundary)}
    (hwalk : DepthFirst.Walk (includesOf machine root) Prod.fst seen todo order)
    (hallowed : ∀ n ∈ order, AllAllowed machine root n)
    (htodo : ∀ n ∈ todo, n.1 ∈ files.map LoadedFile.path) :
    ∃ least, ∀ depth ≥ least,
      todo.foldlM (collectCompletionTaskNames machine depth)
        ⟨namesOf machine root seen, seen.map Prod.fst⟩ =
        some ⟨namesOf machine root order, order.map Prod.fst⟩ := by
  induction hwalk with
  | nil seen => exact ⟨0, fun _ _ => rfl⟩
  | @skip seen order todo n hseen _ ih =>
      obtain ⟨least, hleast⟩ := ih hallowed fun m hm => htodo m (List.mem_cons_of_mem _ hm)
      obtain ⟨d, hd, hpath⟩ := List.mem_map.mp (htodo n List.mem_cons_self)
      obtain ⟨path, boundary⟩ := n
      obtain rfl : d.path = path := hpath
      refine ⟨least + 1, ?_⟩
      intro depth hdepth
      obtain ⟨depth, rfl⟩ : ∃ k, depth = k + 1 := ⟨depth - 1, by omega⟩
      rw [List.foldlM_cons, collect_skip hoffline hd hseen]
      exact hleast _ (by omega)
  | @visit seen mid order todo n hseen hnext hrest ihnext ihrest =>
      obtain ⟨d, hd, hpath⟩ := List.mem_map.mp (htodo n List.mem_cons_self)
      obtain ⟨path, boundary⟩ := n
      obtain rfl : d.path = path := hpath
      have hself : (d.path, boundary) ∈ order :=
        hrest.mono (hnext.mono (List.mem_append_right _ List.mem_cons_self))
      obtain ⟨inner, hinner⟩ := ihnext (fun m hm => hallowed m (hrest.mono hm))
        fun m hm => includesOf_loaded h hd hm
      obtain ⟨outer, houter⟩ := ihrest hallowed fun m hm => htodo m (List.mem_cons_of_mem _ hm)
      refine ⟨max inner outer + 1, ?_⟩
      intro depth hdepth
      obtain ⟨depth, rfl⟩ : ∃ k, depth = k + 1 := ⟨depth - 1, by omega⟩
      rw [List.foldlM_cons, collect_visit hoffline hd hseen,
        completionNext_all h hoffline hd (hallowed _ hself), ← namesOf_append h hd boundary]
      have hinner' := hinner depth (by omega)
      rw [List.map_append] at hinner'
      rw [show [d.path] = List.map Prod.fst [(d.path, boundary)] from rfl, hinner']
      exact houter _ (by omega)

/-- A walk over every include goes to every loaded file. -/
theorem walk_loaded (h : LoadedTree machine .native root files)
    {order : List (Path × Option Boundary)}
    (hwalk : DepthFirst.Walk (includesOf machine root) Prod.fst [] [(root.path, none)] order) :
    ∀ f ∈ files, f.path ∈ order.map Prod.fst := by
  refine h.induction (hwalk.todo List.mem_cons_self) ?_
  intro d hd f hf entry hentry hfollowed _ hmem
  obtain ⟨⟨path, boundary⟩, hn, rfl⟩ := List.mem_map.mp hmem
  rcases hwalk.closed hn with hnil | hclosed
  · cases hnil
  · refine hclosed (f.path, carriedBoundary machine boundary entry) ?_
    unfold includesOf
    rw [h.contents hd]
    refine List.mem_filterMap.mpr ⟨entry, hentry, ?_⟩
    simp only [hfollowed.target]
    rfl

theorem mem_keys_of_merge {loaded : LoadedConfig} (h : MergeOf loaded loaded.files)
    (name : String) :
    name ∈ loaded.config.tasks.keys ↔ ∃ f ∈ loaded.files, name ∈ f.file.tasks.keys := by
  unfold IndexMap.keys
  rw [h.tasks, List.map_flatMap, List.mem_flatMap]
  rfl

/-- The names of all the files that a walk over every include goes to. -/
theorem namesOf_walk {loaded : LoadedConfig} (h : LoadedTree machine .native root loaded.files)
    (hmerge : MergeOf loaded loaded.files) {order : List (Path × Option Boundary)}
    (hwalk : DepthFirst.Walk (includesOf machine root) Prod.fst [] [(root.path, none)] order)
    (hloaded : ∀ n ∈ order, n.1 ∈ loaded.files.map LoadedFile.path) :
    namesOf machine root order = loaded.config.tasks.keys.toFinset := by
  ext name
  unfold namesOf
  rw [List.mem_toFinset, List.mem_toFinset, mem_keys_of_merge hmerge, List.mem_flatMap]
  constructor
  · rintro ⟨n, hn, hname⟩
    obtain ⟨f, hf, hpath⟩ := List.mem_map.mp (hloaded n hn)
    rw [← hpath, h.contents hf] at hname
    exact ⟨f, hf, hname⟩
  · rintro ⟨f, hf, hname⟩
    obtain ⟨n, hn, hpath⟩ := List.mem_map.mp (walk_loaded h hwalk f hf)
    refine ⟨n, hn, ?_⟩
    rw [hpath, h.contents hf]
    exact hname

/-- A walk over every include goes to loaded files only. -/
theorem walk_within (h : LoadedTree machine .native root files)
    {seen todo order : List (Path × Option Boundary)}
    (hwalk : DepthFirst.Walk (includesOf machine root) Prod.fst seen todo order)
    (hseen : ∀ n ∈ seen, n.1 ∈ files.map LoadedFile.path)
    (htodo : ∀ n ∈ todo, n.1 ∈ files.map LoadedFile.path) :
    ∀ n ∈ order, n.1 ∈ files.map LoadedFile.path := by
  induction hwalk with
  | nil seen => exact hseen
  | skip _ _ ih => exact ih hseen fun m hm => htodo m (List.mem_cons_of_mem _ hm)
  | @visit seen mid order todo n _ _ _ ihnext ihrest =>
      have hn := htodo n List.mem_cons_self
      obtain ⟨d, hd, hpath⟩ := List.mem_map.mp hn
      refine ihrest (ihnext ?_ ?_) fun m hm => htodo m (List.mem_cons_of_mem _ hm)
      · intro m hm
        rcases List.mem_append.mp hm with hm | hm
        · exact hseen m hm
        · rw [List.mem_singleton.mp hm]
          exact hn
      · intro m hm
        rw [show n = (d.path, n.2) from Prod.ext hpath.symm rfl] at hm
        exact includesOf_loaded h hd hm

/-- What a load and its root leave for a completion to rely on. -/
theorem offline_of_load {path : Path}
    (hcwd : ∀ dir, machine.currentDir = .ok dir → Paths.isAbsolute dir = true)
    (habsolute : absolutePath machine path = .ok root.path)
    (h : LoadedTree machine .native root files)
    (hcached : ∀ d ∈ files, ∀ entry ∈ d.file.includes, InCache machine entry)
    (hread : ConfigFormat.native.parse machine root.path none = .ok root.file) :
    Offline machine files where
  absolute := hcwd
  cached := hcached
  unchanged := by
    intro f hf
    rcases h.arrival hf with rfl | ⟨_, _, _, _, _, _, hparse⟩
    · exact hread
    · exact hparse
  located := by
    intro f hf
    rcases h.arrival hf with rfl | ⟨d, _, entry, _, hfollowed, -⟩
    · exact absolutePath_absolute hcwd habsolute
    · obtain ⟨q, hq⟩ := entryTarget_absolute hfollowed.target
      exact absolutePath_absolute hcwd hq

/-- A completion starts at the root file. -/
theorem taskNames_root {path : Path} (habsolute : absolutePath machine path = .ok root.path)
    (hlocated : absolutePath machine root.path = .ok root.path) (depth : ℕ) :
    taskNamesForCompletion machine depth path =
      ([(root.path, none)].foldlM (collectCompletionTaskNames machine depth) ⟨∅, []⟩).map
        fun c => c.names.sort (· ≤ ·) := by
  unfold taskNamesForCompletion
  rw [List.foldlM_cons]
  cases depth with
  | zero => rfl
  | succ depth =>
      rw [collectCompletionTaskNames, collectCompletionTaskNames, habsolute, hlocated]
      simp

/-- **Completion and the loader.**  Of every native load that succeeds, with the clones it used in
the cache and the files unchanged, a completion ends and offers names of the loaded project only.
It offers exactly those names if, going depth-first over every include, each file is first reached
with a boundary that allows all of its includes. -/
theorem completion_agrees {running : Option String} {rounds : ℕ} {path : Path}
    {loaded : LoadedConfig}
    (hcwd : ∀ dir, machine.currentDir = .ok dir → Paths.isAbsolute dir = true)
    (hroot : readRoot machine .native path = .ok root)
    (h : loadFrom machine .native running rounds root = some (.ok loaded))
    (hcached : ∀ d ∈ loaded.files, ∀ entry ∈ d.file.includes, InCache machine entry)
    (hread : ConfigFormat.native.parse machine root.path none = .ok root.file) :
    (∃ least, ∀ depth ≥ least, ∃ names, taskNamesForCompletion machine depth path = some names ∧
      ∀ name ∈ names, name ∈ loaded.config.tasks.keys) ∧
    (AllowedDepthFirst machine root → ∃ least, ∀ depth ≥ least,
      taskNamesForCompletion machine depth path =
        some (loaded.config.tasks.keys.toFinset.sort (· ≤ ·))) := by
  obtain ⟨howned, habsolute, -⟩ := readRoot_ok hroot
  have htree : LoadedTree machine .native root loaded.files := loadFrom_tree howned h
  have hoffline := offline_of_load hcwd habsolute htree hcached hread
  have hstart := taskNames_root habsolute (hoffline.located root htree.root_mem)
  have hmerge : MergeOf loaded loaded.files := by
    obtain ⟨t, -, hfinish⟩ := loadFrom_ok h
    refine finishLoad_merge ?_ hfinish
    rw [← (finishLoad_files hfinish).1]
    exact htree.nodup
  have htodo : ∀ n ∈ [(root.path, (none : Option Boundary))],
      n.1 ∈ loaded.files.map LoadedFile.path := by
    intro n hn
    rw [List.mem_singleton.mp hn]
    exact List.mem_map_of_mem htree.root_mem
  constructor
  · refine ⟨Loop.unseen (loaded.files.map LoadedFile.path) [] + 1, ?_⟩
    intro depth hdepth
    obtain ⟨c, hrun, -, hnames⟩ :=
      collect_within (c := ⟨∅, []⟩) htree hoffline htodo hdepth (by simp)
    refine ⟨_, by rw [hstart, hrun]; rfl, ?_⟩
    intro name hname
    rw [mem_keys_of_merge hmerge]
    exact hnames name ((Finset.mem_sort _).mp hname)
  · rintro ⟨order, hwalk, hallowed⟩
    obtain ⟨least, hleast⟩ := collect_walk htree hoffline hwalk hallowed htodo
    refine ⟨least, ?_⟩
    intro depth hdepth
    have hrun := hleast depth hdepth
    rw [namesOf_walk htree hmerge hwalk (walk_within htree hwalk (by simp) htodo)] at hrun
    rw [hstart]
    exact congrArg (Option.map fun c : Completion => c.names.sort (· ≤ ·)) hrun

theorem inCache_inMemory (dir home : Path) (contents : List (Path × ConfigFile)) (clones : Clones)
    (entry : IncludeEntry) : InCache (Machine.inMemory dir home contents clones) entry := by
  intro remote _
  unfold Machine.inMemory
  simp only
  cases clones.find? fun e => e.1 = (remote.1, remote.2) <;> rfl

/-- A bundle's file that the root may have reached through another file of the bundle, and through
an entry that lets it declare Git includes. -/
def sharedFileRoot (order : List IncludeEntry) : LoadedFile where
  path := Paths.ofText "/p/ratect.toml".toList
  file := { projectName := some "p", includes := order }
  boundary := none

/-- The entry that grants nothing, and the one that allows nested Git includes. -/
def sharedFileEntries : List IncludeEntry :=
  [.git ⟨"a"⟩ "1" (some "e.toml".toList) false none none,
    .git ⟨"a"⟩ "1" (some "x.toml".toList) false (some true) none]

/-- The task stands in a bundle that the shared file includes. -/
def sharedFile (order : List IncludeEntry) : Machine :=
  Machine.inMemory (Paths.ofText ['/', 'p']) (Paths.ofText ['/', 'h'])
    [ ((sharedFileRoot order).path, (sharedFileRoot order).file),
      (Paths.ofText "/c/a/e.toml".toList, { includes := [.file "x.toml".toList] }),
      (Paths.ofText "/c/a/x.toml".toList,
        { includes := [.git ⟨"b"⟩ "1" (some "t.toml".toList) false none none] }),
      (Paths.ofText "/c/b/t.toml".toList,
        { tasks := .single "build" {} }) ]
    [((⟨"a"⟩, "1"), Paths.ofText "/c/a".toList), ((⟨"b"⟩, "1"), Paths.ofText "/c/b".toList)]

theorem sharedFile_cwd (order : List IncludeEntry) (dir : Path)
    (h : (sharedFile order).currentDir = .ok dir) : Paths.isAbsolute dir = true := by
  obtain rfl : Paths.ofText ['/', 'p'] = dir := Except.ok.inj h
  decide

instance (format : ConfigFormat) (boundary : Option Boundary) (entry : IncludeEntry) :
    Decidable (Permitted format boundary entry) :=
  match entry with
  | .file _ => isTrue trivial
  | .git .. => inferInstanceAs (Decidable (_ = _))

instance (machine : Machine) (boundary : Option Boundary) (entry : IncludeEntry) (q : Path) :
    Decidable (Allowed machine boundary entry q) :=
  inferInstanceAs (Decidable (_ ∧ _))

instance (machine : Machine) (root : LoadedFile) (n : Path × Option Boundary) :
    Decidable (AllAllowed machine root n) :=
  inferInstanceAs (Decidable (∀ file ∈ contentsAt machine .native root n.1, ∀ entry ∈ file.includes,
    ∀ q ∈ entryTarget machine .native n.1 entry, Allowed machine n.2 entry q))

/-- The condition, evaluated. -/
theorem allowedDepthFirst_of_walk (depth : ℕ)
    (h : (([(root.path, none)].foldlM
      (DepthFirst.walk (includesOf machine root) Prod.fst depth) []).any
      fun order => decide (∀ n ∈ order, AllAllowed machine root n)) = true) :
    AllowedDepthFirst machine root := by
  cases horder : [(root.path, none)].foldlM
    (DepthFirst.walk (includesOf machine root) Prod.fst depth) [] with
  | none =>
      rw [horder] at h
      cases h
  | some order =>
      rw [horder] at h
      exact ⟨order, DepthFirst.walk_of_foldlM horder, of_decide_eq_true h⟩

/-- With the granting entry first, a completion offers the task. -/
theorem completion_agrees_shared : ∃ loaded,
    loadFrom (sharedFile sharedFileEntries.reverse) .native none 10
      (sharedFileRoot sharedFileEntries.reverse) =
        some (.ok loaded) ∧
      loaded.config.tasks.keys = ["build"] ∧ ∃ least, ∀ depth ≥ least,
        taskNamesForCompletion (sharedFile sharedFileEntries.reverse) depth
          (Paths.ofText "/p/ratect.toml".toList) =
          some (loaded.config.tasks.keys.toFinset.sort (· ≤ ·)) := by
  have hrun : Loop.succeeds
      (fun loaded : LoadedConfig => decide (loaded.config.tasks.keys = ["build"]))
      (loadFrom (sharedFile sharedFileEntries.reverse) .native none 10
        (sharedFileRoot sharedFileEntries.reverse)) = true := by decide +kernel
  obtain ⟨loaded, hloaded, hkeys⟩ := Loop.exists_of_succeeds hrun
  exact ⟨loaded, hloaded, of_decide_eq_true hkeys, (completion_agrees (sharedFile_cwd _) rfl hloaded
    (fun _ _ _ _ => inCache_inMemory _ _ _ _ _) rfl).2
      (allowedDepthFirst_of_walk 10 (by decide +kernel))⟩

/-- Through the entry that grants nothing, a completion goes to the shared file first, skips its Git
include there, and does not come back to it. -/
theorem completion_misses_task :
    ¬ ∀ (machine : Machine) (running : Option String) (rounds : ℕ) (path : Path) (root : LoadedFile)
      (loaded : LoadedConfig),
    (∀ dir, machine.currentDir = .ok dir → Paths.isAbsolute dir = true) →
    readRoot machine .native path = .ok root →
    loadFrom machine .native running rounds root = some (.ok loaded) →
    (∀ d ∈ loaded.files, ∀ entry ∈ d.file.includes, InCache machine entry) →
    ConfigFormat.native.parse machine root.path none = .ok root.file →
    ∀ depth names, taskNamesForCompletion machine depth path = some names →
      names.toFinset = loaded.config.tasks.keys.toFinset := by
  intro hclaim
  have hrun : Loop.succeeds
      (fun loaded : LoadedConfig => decide (loaded.config.tasks.keys = ["build"]))
      (loadFrom (sharedFile sharedFileEntries) .native none 10 (sharedFileRoot sharedFileEntries)) =
        true := by
    decide +kernel
  obtain ⟨loaded, hloaded, hkeys⟩ := Loop.exists_of_succeeds hrun
  have hnames : taskNamesForCompletion (sharedFile sharedFileEntries) 10
      (Paths.ofText "/p/ratect.toml".toList) = some [] := by decide +kernel
  have heq := hclaim (sharedFile sharedFileEntries) none 10 (Paths.ofText "/p/ratect.toml".toList)
    (sharedFileRoot sharedFileEntries) loaded (sharedFile_cwd _) rfl hloaded
    (fun _ _ _ _ => inCache_inMemory _ _ _ _ _) rfl 10 [] hnames
  rw [of_decide_eq_true hkeys] at heq
  exact absurd heq (by decide)

end agreement

end Ratect
