import Ratect.IncludeGraph

/-! # The walk ends, and merging is a disjoint union

The walk over a finite include graph ends, since every round takes an entry off the queue or reads
a file that was not read before (`traverse_terminates`), and it reads no file twice
(`reads_once`).  Merging runs over the declarations of all files in load order; where no name stands
in two files it keeps every one of them, and otherwise it is refused
(`Merge.entries_ofFiles`, `Merge.rejectDuplicates_ok`). -/

namespace Ratect

open Paths (Path)

/-! ### Termination -/

section walk

variable {machine : Machine} {format : ConfigFormat} {running : Option String} {root : LoadedFile}

/-- Finitely many files are reached from the root. -/
def FiniteGraph (machine : Machine) (format : ConfigFormat) (root : LoadedFile) : Prop :=
  ∃ nodes : List Path, ∀ q, IncludeReaches machine format root root.path q → q ∈ nodes

/-- A round takes one entry off the queue, and reads at most one new file, which the root
reaches. -/
theorem traverseStep_descends {t t' : Traversal} (hroot : root.boundary = none)
    (h : Walked machine format root t)
    (hstep : traverseStep machine format running root.path t = .ok (.inl t')) :
    (t'.seen = t.seen ∧ t'.queue.length < t.queue.length) ∨
      ∃ q, IncludeReaches machine format root root.path q ∧ q ∉ t.seen ∧
        t'.seen = t.seen ++ [q] := by
  unfold traverseStep at hstep
  split at hstep
  · cases hstep
  · next p queue hqueue =>
      cases hvisit : visitEntry machine format running root.path { t with queue := queue } p with
      | error e =>
          rw [hvisit] at hstep
          cases hstep
      | ok t'' =>
          rw [hvisit] at hstep
          cases hstep
          obtain ⟨resolved, hfollowed, -, -, hcase⟩ :=
            visitEntry_cases (t := { t with queue := queue })
            h.clones hvisit
          rcases hcase with ⟨-, hseen', -, hqueue', -⟩ | ⟨hseen, f, -, -, -, hseen', -⟩
          · refine Or.inl ⟨hseen', ?_⟩
            rw [hqueue', hqueue]
            exact Nat.lt_succ_self _
          · obtain ⟨d, hd, hdpath, -, hentry⟩ := h.visiting hqueue
            have hpart := h.part hroot
            have htarget : entryTarget machine format d.path p.entry = some resolved := by
              rw [hdpath]
              exact hfollowed.target
            exact Or.inr ⟨resolved, (hpart.reaches d hd).tail (hpart.edge hd hentry htarget),
              hseen, hseen'⟩

/-- The walk over a finite include graph ends. -/
theorem traverse_terminates (running : Option String) (hroot : root.boundary = none)
    (hfinite : FiniteGraph machine format root) :
    ∃ rounds r, traverse machine format running rounds root = some r := by
  obtain ⟨nodes, hnodes⟩ := hfinite
  have hwf : WellFounded (Prod.Lex (· < ·) (· < ·) : ℕ × ℕ → ℕ × ℕ → Prop) :=
    WellFounded.prod_lex wellFounded_lt wellFounded_lt
  have hstep : ∀ t t', Walked machine format root t →
      traverseStep machine format running root.path t = .ok (.inl t') →
      Walked machine format root t' ∧
        Prod.Lex (· < ·) (· < ·) (Loop.unseen nodes t'.seen, t'.queue.length)
          (Loop.unseen nodes t.seen, t.queue.length) := by
    intro t t' h hstep
    refine ⟨h.step hstep, ?_⟩
    rcases traverseStep_descends hroot h hstep with ⟨hseen', hlt⟩ | ⟨q, hreach, hseen, hseen'⟩
    · rw [hseen']
      exact Prod.Lex.right _ hlt
    · rw [hseen']
      exact Prod.Lex.left _ _ (Loop.unseen_lt (hnodes q hreach) hseen)
  exact Loop.run_terminates hwf (fun t => (Loop.unseen nodes t.seen, t.queue.length)) hstep
    (walked_start hroot)

/-- The file that the next round reads, if it reads one. -/
def nextRead (machine : Machine) (format : ConfigFormat) (root : Path)
    (t : Traversal) : Option Path :=
  match t.queue with
  | [] => none
  | p :: _ =>
      match resolveEntry machine format root t.gitRepoPaths p with
      | .error _ => none
      | .ok (resolved, _, _) => if resolved ∈ t.seen then none else some resolved

/-- No file is read twice: those read so far and the one read next are different files. -/
theorem reads_once {t : Traversal} (h : Walked machine format root t) :
    (t.loaded.map LoadedFile.path ++ (nextRead machine format root.path t).toList).Nodup := by
  rw [← h.seen]
  cases hnext : nextRead machine format root.path t with
  | none => simpa using h.nodup
  | some q =>
      have hq : q ∉ t.seen := by
        unfold nextRead at hnext
        split at hnext
        · cases hnext
        · split at hnext
          · cases hnext
          · split at hnext
            · cases hnext
            · next hseen =>
                cases hnext
                exact hseen
      rw [Option.toList_some, List.nodup_append]
      refine ⟨h.nodup, List.nodup_singleton q, ?_⟩
      rintro a ha b hb rfl
      exact hq (List.mem_singleton.mp hb ▸ ha)

end walk

/-! ### The merge -/

namespace Merge

variable {V : Type} {declared : ConfigFile → List (String × V)}

/-- Every declaration of a file, with the file. -/
def declarationsOf (declared : ConfigFile → List (String × V)) (f : LoadedFile) :
    List (String × V × DefinedIn) :=
  (declared f.file).map fun e => (e.1, e.2, f.path, f.boundary)

/-- Every declaration, in load order. -/
def declarations (declared : ConfigFile → List (String × V)) (files : List LoadedFile) :
    List (String × V × DefinedIn) :=
  files.flatMap (declarationsOf declared)

/-- The declarations merged one after the other. -/
def declareAll (merge : Merge V) (all : List (String × V × DefinedIn)) : Merge V :=
  all.foldl (fun merge d => merge.declare d.2.2 (d.1, d.2.1)) merge

theorem ofFiles_eq (files : List LoadedFile) :
    ofFiles declared files = declareAll empty (declarations declared files) := by
  unfold ofFiles declareAll declarations
  rw [List.foldl_flatMap]
  congr 1
  funext merge f
  unfold addFile declarationsOf
  rw [List.foldl_map]

theorem files_declareAll (merge : Merge V) (all : List (String × V × DefinedIn)) :
    (declareAll merge all).files = merge.files ++ all.map fun d => (d.1, d.2.2) := by
  induction all generalizing merge with
  | nil => exact (List.append_nil _).symm
  | cons d all ih =>
      show (declareAll (merge.declare d.2.2 (d.1, d.2.1)) all).files = _
      rw [ih]
      simp [declare]

/-- The first declaration of a name is kept. -/
theorem entries_declare {merge : Merge V} {d : String × V × DefinedIn}
    (hd : d.1 ∉ merge.entries.keys) :
    (merge.declare d.2.2 (d.1, d.2.1)).entries.entries = merge.entries.entries ++ [d] := by
  unfold declare
  rw [dif_neg hd]

theorem keys_declareAll (merge : Merge V) (all : List (String × V × DefinedIn)) (name : String) :
    name ∈ (declareAll merge all).entries.keys ↔
      name ∈ merge.entries.keys ∨ name ∈ all.map Prod.fst := by
  induction all generalizing merge with
  | nil => simp [declareAll]
  | cons d all ih =>
      have hdeclare : name ∈ (merge.declare d.2.2 (d.1, d.2.1)).entries.keys ↔
          name ∈ merge.entries.keys ∨ name = d.1 := by
        unfold declare
        by_cases hd : d.1 ∈ merge.entries.keys
        · simp only [dif_pos hd]
          constructor
          · exact Or.inl
          · rintro (h | rfl)
            · exact h
            · exact hd
        · show name ∈ (merge.declare d.2.2 (d.1, d.2.1)).entries.entries.map Prod.fst ↔ _
          rw [entries_declare hd, List.map_append, List.mem_append,
            List.map_singleton, List.mem_singleton]
          rfl
      show name ∈ (declareAll (merge.declare d.2.2 (d.1, d.2.1)) all).entries.keys ↔ _
      rw [ih, hdeclare, List.map_cons, List.mem_cons, or_assoc]

/-- Where no name comes twice, every declaration is kept. -/
theorem entries_declareAll (merge : Merge V) (all : List (String × V × DefinedIn))
    (h : (merge.entries.keys ++ all.map Prod.fst).Nodup) :
    (declareAll merge all).entries.entries = merge.entries.entries ++ all := by
  induction all generalizing merge with
  | nil => exact (List.append_nil _).symm
  | cons d all ih =>
      have hd : d.1 ∉ merge.entries.keys := by
        intro hmem
        rw [List.map_cons] at h
        exact (List.nodup_append.mp h).2.2 d.1 hmem d.1 List.mem_cons_self rfl
      have hkeys : (merge.declare d.2.2 (d.1, d.2.1)).entries.keys =
          merge.entries.keys ++ [d.1] := by
        unfold IndexMap.keys
        rw [entries_declare hd, List.map_append]
        rfl
      show (declareAll (merge.declare d.2.2 (d.1, d.2.1)) all).entries.entries = _
      rw [ih, entries_declare hd, List.append_assoc]
      · rfl
      · rw [hkeys, List.append_assoc]
        exact h

theorem length_filesOf (merge : Merge V) (name : String) :
    (merge.filesOf name).length = (merge.files.map Prod.fst).count name := by
  unfold filesOf
  rw [List.length_map, List.count, List.countP_map, List.countP_eq_length_filter]
  rfl

/-- Names that stand in one file only pass. -/
theorem rejectDuplicates_ok {kind : String} {files : List LoadedFile} :
    rejectDuplicates kind (ofFiles declared files) = .ok () ↔
      ((declarations declared files).map Prod.fst).Nodup := by
  have hnames : (ofFiles declared files).files.map Prod.fst =
      (declarations declared files).map Prod.fst := by
    rw [ofFiles_eq, files_declareAll]
    simp [empty]
  have hkeys : ∀ name, name ∈ (ofFiles declared files).entries.keys ↔
      name ∈ (declarations declared files).map Prod.fst := by
    intro name
    rw [ofFiles_eq, keys_declareAll]
    simp [empty, IndexMap.keys, IndexMap.empty]
  have hfirst : rejectDuplicates kind (ofFiles declared files) = .ok () ↔
      ∀ name ∈ (ofFiles declared files).entries.keys,
        ¬ 1 < ((ofFiles declared files).filesOf name).length := by
    unfold rejectDuplicates firstDuplicate
    cases hfind : (ofFiles declared files).entries.keys.find? fun name =>
        1 < ((ofFiles declared files).filesOf name).length with
    | none =>
        rw [List.find?_eq_none] at hfind
        simpa using hfind
    | some name =>
        have hmem := List.mem_of_find?_eq_some hfind
        have hlt := List.find?_some hfind
        simp only [Option.map_some, reduceCtorEq, false_iff, not_forall]
        exact ⟨name, hmem, by simpa using hlt⟩
  rw [hfirst, List.nodup_iff_count_le_one]
  constructor
  · intro h name
    by_cases hname : name ∈ (declarations declared files).map Prod.fst
    · have hle := h name ((hkeys name).mpr hname)
      rw [length_filesOf, hnames] at hle
      omega
    · rw [List.count_eq_zero_of_not_mem hname]
      omega
  · intro h name _
    rw [length_filesOf, hnames]
    have hle := h name
    omega

/-- Merged without duplicates, the entries are the declarations in load order. -/
theorem entries_ofFiles {files : List LoadedFile}
    (h : ((declarations declared files).map Prod.fst).Nodup) :
    (ofFiles declared files).entries.entries = declarations declared files := by
  rw [ofFiles_eq, entries_declareAll]
  · rfl
  · simpa [empty, IndexMap.keys, IndexMap.empty] using h

/-- A name of this kind stands in two of the files. -/
def Clash (declared : ConfigFile → List (String × V)) (files : List LoadedFile) : Prop :=
  ∃ f ∈ files, ∃ g ∈ files, f.path ≠ g.path ∧
    ∃ name, name ∈ (declared f.file).map Prod.fst ∧ name ∈ (declared g.file).map Prod.fst

/-- No name comes twice exactly if none stands in two files. -/
theorem nodup_iff_not_clash {files : List LoadedFile}
    (hown : ∀ file, ((declared file).map Prod.fst).Nodup)
    (hpaths : (files.map LoadedFile.path).Nodup) :
    ((declarations declared files).map Prod.fst).Nodup ↔ ¬ Clash declared files := by
  have hnames : (declarations declared files).map Prod.fst =
      files.flatMap fun f => (declared f.file).map Prod.fst := by
    unfold declarations declarationsOf
    rw [List.map_flatMap]
    congr 1
    funext f
    rw [List.map_map]
    rfl
  rw [hnames, List.nodup_flatMap]
  constructor
  · rintro ⟨-, hdisjoint⟩ ⟨f, hf, g, hg, hne, name, hfn, hgn⟩
    have hfg : f ≠ g := fun heq => hne (congrArg LoadedFile.path heq)
    have hsymm : Std.Symm (Function.onFun List.Disjoint fun f : LoadedFile =>
        (declared f.file).map Prod.fst) :=
      ⟨fun _ _ h => List.Disjoint.symm h⟩
    exact hdisjoint.forall hf hg hfg hfn hgn
  · intro hclash
    refine ⟨fun f _ => hown f.file, ?_⟩
    have hpairs : files.Pairwise fun f g => f.path ≠ g.path := List.pairwise_map.mp hpaths
    refine hpairs.imp_of_mem ?_
    intro f g hf hg hne name hfn hgn
    exact hclash ⟨f, hf, g, hg, hne, name, hfn, hgn⟩

theorem rejectDuplicates_cases (kind : String) (merge : Merge V) :
    merge.rejectDuplicates kind = .ok () ∨
      ∃ name files, merge.rejectDuplicates kind = .error (.duplicate kind name files) := by
  unfold rejectDuplicates
  cases merge.firstDuplicate with
  | none => exact Or.inl rfl
  | some d => exact Or.inr ⟨d.1, d.2, rfl⟩

/-- What the merged map and the recorded files say of a declaration. -/
theorem get?_ofFiles {files : List LoadedFile}
    (h : ((declarations declared files).map Prod.fst).Nodup) {f : LoadedFile} (hf : f ∈ files)
    {name : String} {v : V} (hv : (name, v) ∈ declared f.file) :
    (ofFiles declared files).entries.get? name = some (v, f.path, f.boundary) := by
  apply IndexMap.get?_of_mem
  rw [entries_ofFiles h]
  exact List.mem_flatMap.mpr ⟨f, hf, List.mem_map_of_mem hv⟩

theorem values_ofFiles {files : List LoadedFile}
    (h : ((declarations declared files).map Prod.fst).Nodup) :
    (ofFiles declared files).values.entries = files.flatMap fun f => declared f.file := by
  show (ofFiles declared files).entries.entries.map (fun e => (e.1, e.2.1)) = _
  rw [entries_ofFiles h]
  unfold declarations declarationsOf
  rw [List.map_flatMap]
  congr 1
  funext f
  rw [List.map_map]
  exact List.map_id _

end Merge

/-! ### Where a load fails over duplicates -/

section refusals

/-- A step fails over a name that stands twice. -/
def FailsTwice {α : Type} (x : Except LoadError α) : Prop :=
  ∃ kind name files, x = .error (.duplicate kind name files)

/-- A step that does not. -/
def NoDuplicate {α : Type} (x : Except LoadError α) : Prop :=
  ∀ kind name files, x ≠ .error (.duplicate kind name files)

theorem failsTwice_bind {α β : Type} {x : Except LoadError α} {f : α → Except LoadError β} :
    FailsTwice (x >>= f) ↔ FailsTwice x ∨ ∃ a, x = .ok a ∧ FailsTwice (f a) := by
  unfold FailsTwice
  cases x with
  | error e => simp [bind, Except.bind]
  | ok a => simp [bind, Except.bind]

namespace NoDuplicate

theorem not_fails {α : Type} {x : Except LoadError α} (h : NoDuplicate x) : ¬ FailsTwice x := by
  rintro ⟨kind, name, files, hx⟩
  exact h kind name files hx

theorem ok {α : Type} (a : α) : NoDuplicate (.ok a) := by
  intro kind name files h
  cases h

theorem bind {α β : Type} {x : Except LoadError α} {f : α → Except LoadError β} (hx : NoDuplicate x)
    (hf : ∀ a, NoDuplicate (f a)) : NoDuplicate (x >>= f) := by
  intro kind name files h
  cases x with
  | error e =>
      cases h
      exact hx kind name files rfl
  | ok a => exact hf a kind name files h

variable {machine : Machine} {format : ConfigFormat}

theorem absolutePath (path : Path) : NoDuplicate (absolutePath machine path) := by
  intro kind name files h
  unfold Ratect.absolutePath at h
  split at h <;> cases h

theorem checkContained (boundary : Option Boundary) (path : Path) :
    NoDuplicate (checkContained boundary path) := by
  intro kind name files h
  unfold Ratect.checkContained Boundary.checkContains at h
  grind

theorem includeFileAt (target : Path) (asWritten : Text) (boundary : Option Boundary) :
    NoDuplicate (includeFileAt machine target asWritten boundary) := by
  unfold Ratect.includeFileAt
  split
  · intro kind name files h
    cases h
  · refine bind (absolutePath target) fun resolved =>
      bind (checkContained boundary resolved) fun _ => ?_
    intro kind name files h
    grind

theorem localIncludeTarget (dir : Path) (path : Text) :
    NoDuplicate (localIncludeTarget machine dir path) := by
  unfold Ratect.localIncludeTarget
  refine bind ?_ fun _ => ok _
  intro kind name files h
  unfold expandHomeDirectory at h
  grind

theorem firstCandidate (dir : Path) (boundary : Option Boundary) (all candidates : List Text) :
    NoDuplicate (firstCandidate machine dir boundary all candidates) := by
  induction candidates with
  | nil =>
      intro kind name files h
      cases h
  | cons c rest ih =>
      unfold Ratect.firstCandidate
      refine bind (absolutePath _) fun resolved =>
        bind (checkContained boundary resolved) fun _ => ?_
      split
      · exact ok _
      · exact ih

theorem resolveIncludeTarget (dir : Path) (candidates : List Text) (boundary : Option Boundary) :
    NoDuplicate (resolveIncludeTarget machine dir candidates boundary) := by
  unfold Ratect.resolveIncludeTarget
  split
  · exact includeFileAt _ _ _
  · exact firstCandidate _ _ _ _

theorem resolveEntry (root : Path) (clones : Clones) (p : Pending) :
    NoDuplicate (resolveEntry machine format root clones p) := by
  unfold Ratect.resolveEntry
  split
  · refine bind (bind (localIncludeTarget _ _) fun _ => includeFileAt _ _ _) fun _ => ok _
  · refine bind ?_ fun _ => bind ?_ fun _ => bind ?_ fun _ =>
      bind (resolveIncludeTarget _ _ _) fun _ => ok _
    · intro kind name files h
      unfold checkDialect at h
      grind
    · intro kind name files h
      unfold checkMayDeclareGit at h
      grind
    · intro kind name files h
      unfold cloneDir hideCloneDetail at h
      grind

theorem boundaryContains (boundary : Option Boundary) (resolved : Path) :
    NoDuplicate (boundaryContains machine boundary resolved) := by
  cases boundary with
  | none => exact ok _
  | some boundary =>
      refine bind (checkContained (some boundary) resolved) fun _ => ?_
      intro kind name files h
      unfold Boundary.checkContainsCanonical at h
      grind

theorem refusedWrittenFor {α : Type} (x : Except String α) : NoDuplicate (refusedWrittenFor x) := by
  intro kind name files h
  unfold Ratect.refusedWrittenFor at h
  grind

theorem checkEntryWrittenFor (running : Option String) (root : Path) (p : Pending) (resolved : Path)
    (boundary : Option Boundary) :
    NoDuplicate (checkEntryWrittenFor machine format running root p resolved boundary) := by
  unfold Ratect.checkEntryWrittenFor
  split
  · unfold checkBundleEntry
    refine bind ?_ fun _ => bind (refusedWrittenFor _) fun written => ?_
    · intro kind name files h
      unfold parseReviewed at h
      grind
    · split
      · exact ok _
      · exact ok _
      · exact bind (refusedWrittenFor _) fun _ => ok _
  · exact ok _

theorem checkGrants (grants : EffectiveGrants) (resolved : Path) (entry : IncludeEntry)
    (boundary : Option Boundary) : NoDuplicate (checkGrants grants resolved entry boundary) := by
  intro kind name files h
  unfold Ratect.checkGrants EffectiveGrants.check at h
  grind

theorem readIncluded (resolved : Path) (boundary : Option Boundary) (entry : IncludeEntry) :
    NoDuplicate (readIncluded machine format resolved boundary entry) := by
  refine bind ?_ fun file => bind ?_ fun _ => bind ?_ fun _ => ok _
  · intro kind name files h
    unfold ConfigFormat.parse ConfigFormat.unreadable at h
    grind
  · intro kind name files h
    unfold rejectMisplacedRatectVersion at h
    grind
  · intro kind name files h
    unfold rejectRootOnlyFields at h
    grind

theorem visitEntry (running : Option String) (root : Path) (t : Traversal) (p : Pending) :
    NoDuplicate (visitEntry machine format running root t p) := by
  unfold Ratect.visitEntry
  refine bind (resolveEntry _ _ _) fun _ => bind (boundaryContains _ _) fun _ =>
    bind (checkEntryWrittenFor _ _ _ _ _) fun _ => ?_
  split
  · exact bind (checkGrants _ _ _ _) fun _ => ok _
  · exact bind (readIncluded _ _ _) fun _ => ok _

/-- The walk does not fail over a name that stands twice. -/
theorem traverse {running : Option String} {rounds : ℕ} {root : LoadedFile}
    {r : Except LoadError Traversal}
    (h : traverse machine format running rounds root = some r) : NoDuplicate r := by
  obtain ⟨t, -, hlast⟩ := Loop.run_end (P := fun _ => True) (fun _ _ _ _ => trivial) trivial h
  rintro kind name files rfl
  unfold traverseStep at hlast
  split at hlast
  · cases hlast
  · next p queue _ =>
      cases hvisit : Ratect.visitEntry machine format running root.path
        { t with queue := queue } p with
      | ok t' =>
          rw [hvisit] at hlast
          cases hlast
      | error e =>
          rw [hvisit] at hlast
          cases hlast
          exact visitEntry _ _ _ _ kind name files hvisit

theorem checkYamlBundles (machine : Machine) (running : Option String) (t : Traversal) :
    NoDuplicate (checkYamlBundles machine running t) := by
  unfold Ratect.checkYamlBundles
  split
  · exact ok _
  · next running =>
      induction t.yamlBundleEntries with
      | nil => exact ok _
      | cons e rest ih => exact bind (refusedWrittenFor _) fun _ => ih

theorem projectName (machine : Machine) (format : ConfigFormat) (root : Path)
    (declared : Option String) : NoDuplicate (format.projectName machine root declared) := by
  intro kind name files h
  unfold ConfigFormat.projectName ConfigFormat.inferProjectName at h
  grind

end NoDuplicate

end refusals

/-! ### Main results -/

section results

variable {machine : Machine} {format : ConfigFormat} {running : Option String} {root : LoadedFile}

theorem containerEntries_nodup (file : ConfigFile) : (file.containerEntries.map Prod.fst).Nodup :=
  file.containers.nodup

theorem taskEntries_nodup (file : ConfigFile) : (file.taskEntries.map Prod.fst).Nodup :=
  file.tasks.nodup

theorem variableEntries_nodup (file : ConfigFile) : (file.variableEntries.map Prod.fst).Nodup := by
  unfold ConfigFile.variableEntries
  split
  · exact List.nodup_nil
  · next declared _ => exact declared.nodup

/-- A task, container or config variable stands in two of the files. -/
def DeclaredTwice (files : List LoadedFile) : Prop :=
  Merge.Clash ConfigFile.taskEntries files ∨ Merge.Clash ConfigFile.containerEntries files ∨
    Merge.Clash ConfigFile.variableEntries files

/-- The merged configuration of some files: the disjoint union of what they declare, in load order,
and of each container the path, directory and boundary of the one file that declares it. -/
structure MergeOf (loaded : LoadedConfig) (files : List LoadedFile) : Prop where
  containers : loaded.config.containers.entries = files.flatMap fun f => f.file.containerEntries
  tasks : loaded.config.tasks.entries = files.flatMap fun f => f.file.taskEntries
  configVariables : (loaded.config.configVariables.map IndexMap.entries).getD [] =
    files.flatMap fun f => f.file.variableEntries
  disjoint : ¬ DeclaredTwice files
  origins : ∀ f ∈ files, ∀ name ∈ f.file.containers.keys,
    loaded.containerOrigins.get? name = some f.path ∧
      loaded.containerBasePaths.get? name = some (containingDir f.path) ∧
      loaded.containerBoundaries.get? name = f.boundary

/-- A load that ends well has passed every check, and keeps what was merged. -/
theorem finishLoad_ok {t : Traversal} {loaded : LoadedConfig}
    (h : finishLoad machine format running root t = .ok loaded) :
    (Merge.ofFiles ConfigFile.taskEntries t.loaded).rejectDuplicates "task" = .ok () ∧
      (Merge.ofFiles ConfigFile.containerEntries t.loaded).rejectDuplicates "container" = .ok () ∧
      (Merge.ofFiles ConfigFile.variableEntries t.loaded).rejectDuplicates
        "config variable" = .ok () ∧
      loaded.files = t.loaded ∧
      loaded.config.containers = (Merge.ofFiles ConfigFile.containerEntries t.loaded).values ∧
      loaded.config.tasks = (Merge.ofFiles ConfigFile.taskEntries t.loaded).values ∧
      loaded.config.configVariables =
        nonEmpty (Merge.ofFiles ConfigFile.variableEntries t.loaded).values ∧
      loaded.containerOrigins =
        (Merge.ofFiles ConfigFile.containerEntries t.loaded).origins.mapEntries (fun _ o => o.1) ∧
      loaded.containerBasePaths =
        (Merge.ofFiles ConfigFile.containerEntries t.loaded).origins.mapEntries
          (fun _ o => containingDir o.1) ∧
      loaded.containerBoundaries =
        (Merge.ofFiles ConfigFile.containerEntries t.loaded).origins.filterMapValues Prod.snd := by
  unfold finishLoad at h
  obtain ⟨_, -, h⟩ := Except.bind_eq_ok.mp h
  obtain ⟨_, -, h⟩ := Except.bind_eq_ok.mp h
  obtain ⟨⟨⟩, htasks, h⟩ := Except.bind_eq_ok.mp h
  obtain ⟨⟨⟩, hcontainers, h⟩ := Except.bind_eq_ok.mp h
  obtain ⟨⟨⟩, hvariables, h⟩ := Except.bind_eq_ok.mp h
  cases h
  exact ⟨htasks, hcontainers, hvariables, rfl, rfl, rfl, rfl, rfl, rfl, rfl⟩

/-- The merge of one kind is refused exactly if a name stands in two files. -/
theorem rejectDuplicates_fails {V : Type} {declared : ConfigFile → List (String × V)}
    {files : List LoadedFile} (kind : String) (hown : ∀ file, ((declared file).map Prod.fst).Nodup)
    (hpaths : (files.map LoadedFile.path).Nodup) :
    (FailsTwice ((Merge.ofFiles declared files).rejectDuplicates kind) ↔
      Merge.Clash declared files) ∧
      ((Merge.ofFiles declared files).rejectDuplicates kind = .ok () ↔
        ¬ Merge.Clash declared files) := by
  have hok : (Merge.ofFiles declared files).rejectDuplicates kind = .ok () ↔
      ¬ Merge.Clash declared files := by
    rw [Merge.rejectDuplicates_ok]
    exact Merge.nodup_iff_not_clash hown hpaths
  refine ⟨?_, hok⟩
  rcases Merge.rejectDuplicates_cases kind (Merge.ofFiles declared files) with h | ⟨name, fs, h⟩
  · have hclash := hok.mp h
    rw [h]
    exact ⟨fun hfails => absurd hfails (NoDuplicate.ok ()).not_fails, fun hc => absurd hc hclash⟩
  · have hclash : Merge.Clash declared files := by
      by_contra hc
      rw [hok.mpr hc] at h
      cases h
    exact ⟨fun _ => hclash, fun _ => ⟨kind, name, fs, h⟩⟩

/-- What follows the walk fails over duplicates exactly if the checks before the merge pass and a
name stands in two files. -/
theorem finishLoad_fails {t : Traversal} (hpaths : (t.loaded.map LoadedFile.path).Nodup) :
    FailsTwice (finishLoad machine format running root t) ↔
      checkYamlBundles machine running t = .ok () ∧
        (∃ name, format.projectName machine root.path root.file.projectName = .ok name) ∧
        DeclaredTwice t.loaded := by
  obtain ⟨htasks, htasks'⟩ := rejectDuplicates_fails "task" taskEntries_nodup hpaths
  obtain ⟨hcontainers, hcontainers'⟩ :=
    rejectDuplicates_fails "container" containerEntries_nodup hpaths
  obtain ⟨hvariables, -⟩ := rejectDuplicates_fails "config variable" variableEntries_nodup hpaths
  have hdone : ∀ config : LoadedConfig, ¬ FailsTwice (.ok config) :=
    fun config => (NoDuplicate.ok config).not_fails
  have hyaml := (NoDuplicate.checkYamlBundles machine running t).not_fails
  have hname := (NoDuplicate.projectName machine format root.path root.file.projectName).not_fails
  unfold finishLoad DeclaredTwice
  simp only [failsTwice_bind, pure, Except.pure, htasks, htasks', hcontainers,
    hcontainers', hvariables, hyaml, hname, hdone, false_or, and_false, exists_false, or_false]
  constructor
  · rintro ⟨⟨⟩, hyaml, name, hname, h⟩
    refine ⟨hyaml, ⟨name, hname⟩, ?_⟩
    tauto
  · rintro ⟨hyaml, ⟨name, hname⟩, h⟩
    refine ⟨(), hyaml, name, hname, ?_⟩
    by_cases ht : Merge.Clash ConfigFile.taskEntries t.loaded
    · exact Or.inl ht
    · by_cases hc : Merge.Clash ConfigFile.containerEntries t.loaded
      · exact Or.inr ⟨(), ht, Or.inl hc⟩
      · exact Or.inr ⟨(), ht, Or.inr ⟨(), hc, by tauto⟩⟩

theorem nonEmpty_entries {V : Type} (m : IndexMap String V) :
    ((nonEmpty m).map IndexMap.entries).getD [] = m.entries := by
  unfold nonEmpty
  split
  · next h => exact (List.isEmpty_iff.mp h).symm
  · rfl

/-- A load that ends well is the merge of its files. -/
theorem finishLoad_merge {t : Traversal} {loaded : LoadedConfig}
    (hpaths : (t.loaded.map LoadedFile.path).Nodup)
    (h : finishLoad machine format running root t = .ok loaded) : MergeOf loaded loaded.files := by
  obtain ⟨htasks, hcontainers, hvariables, hfiles, hc, ht, hv, horigins, hbases, hboundaries⟩ :=
    finishLoad_ok h
  have hcontainers' := Merge.rejectDuplicates_ok.mp hcontainers
  rw [hfiles]
  constructor
  · rw [hc, Merge.values_ofFiles hcontainers']
  · rw [ht, Merge.values_ofFiles (Merge.rejectDuplicates_ok.mp htasks)]
  · rw [hv, nonEmpty_entries, Merge.values_ofFiles (Merge.rejectDuplicates_ok.mp hvariables)]
  · rintro (hclash | hclash | hclash)
    · exact (rejectDuplicates_fails "task" taskEntries_nodup hpaths).2.mp htasks hclash
    · exact (rejectDuplicates_fails "container" containerEntries_nodup hpaths).2.mp
        hcontainers hclash
    · exact (rejectDuplicates_fails "config variable" variableEntries_nodup hpaths).2.mp
        hvariables hclash
  · intro f hf name hname
    obtain ⟨e, he, rfl⟩ := List.mem_map.mp hname
    have hget := Merge.get?_ofFiles hcontainers' hf he
    rw [horigins, hbases, hboundaries]
    unfold Merge.origins
    simp only [IndexMap.get?_mapEntries, IndexMap.get?_filterMapValues, hget]
    exact ⟨rfl, rfl, rfl⟩

/-- A configuration that was loaded is the merge of its files. -/
theorem loadFromFile_merge {rounds : ℕ} {path : Path} {loaded : LoadedConfig}
    (h : loadFromFile machine format running rounds path = some (.ok loaded)) :
    MergeOf loaded loaded.files := by
  obtain ⟨root, -, hroot, hload⟩ := loadFromFile_ok h
  obtain ⟨t, -, hfinish⟩ := loadFrom_ok hload
  have hpaths : (t.loaded.map LoadedFile.path).Nodup := by
    rw [← (finishLoad_files hfinish).1]
    exact (loadFrom_tree hroot hload).nodup
  exact finishLoad_merge hpaths hfinish

theorem fileAt_some {path q : Path} (h : fileAt machine path = some q) :
    absolutePath machine path = .ok q := by
  unfold fileAt at h
  split at h
  · cases h
  · next resolved hresolved =>
      split at h
      · cases h
        exact hresolved
      · cases h

/-- What an entry points to was made absolute. -/
theorem entryTarget_absolute {declaring q : Path} {entry : IncludeEntry}
    (h : entryTarget machine format declaring entry = some q) :
    ∃ path, absolutePath machine path = .ok q := by
  unfold entryTarget at h
  split at h
  · split at h
    · cases h
    · exact ⟨_, fileAt_some h⟩
  · split at h
    · cases h
    · obtain ⟨candidate, -, hcandidate⟩ := List.exists_of_findSome?_eq_some h
      exact ⟨_, fileAt_some hcandidate⟩

theorem absolutePath_clean {path q : Path} (h : absolutePath machine path = .ok q) :
    Paths.clean q = q := by
  unfold absolutePath at h
  split at h
  · cases h
  · rw [← Except.ok.inj h]
    exact Paths.clean_clean _

theorem LoadedPart.clean {files : List LoadedFile} {path : Path}
    (h : LoadedPart machine format root files) (hroot : absolutePath machine path = .ok root.path)
    {f : LoadedFile} (hf : f ∈ files) : Paths.clean f.path = f.path := by
  rcases h.arrival hf with rfl | ⟨d, -, entry, -, hfollowed, -⟩
  · exact absolutePath_clean hroot
  · obtain ⟨path, hpath⟩ := entryTarget_absolute hfollowed.target
    exact absolutePath_clean hpath

/-- **Include traversal and merge.**  Over a finite include graph the load ends; in no state of the
walk is the file read next one that was read before; a load that succeeds has loaded exactly the
files that the root reaches, each once and by its cleaned path, and merges them; and a load fails
over duplicates exactly if the walk and the checks that stand before the merge pass and a name
stands in two of the files. -/
theorem include_traversal {path : Path} (running : Option String)
    (hroot : readRoot machine format path = .ok root) :
    (FiniteGraph machine format root →
      ∃ rounds r, loadFrom machine format running rounds root = some r) ∧
    (∀ t, Loop.Reached (traverseStep machine format running root.path) (startTraversal root) t →
      (t.loaded.map LoadedFile.path ++ (nextRead machine format root.path t).toList).Nodup) ∧
    (∀ rounds loaded, loadFrom machine format running rounds root = some (.ok loaded) →
      (loaded.files.map LoadedFile.path).Nodup ∧ (∀ f ∈ loaded.files, Paths.clean f.path = f.path) ∧
        (∀ q, q ∈ loaded.files.map LoadedFile.path ↔
          IncludeReaches machine format root root.path q) ∧
        MergeOf loaded loaded.files) ∧
    ∀ rounds, (∃ r, loadFrom machine format running rounds root = some r ∧ FailsTwice r) ↔
      ∃ t, traverse machine format running rounds root = some (.ok t) ∧
        checkYamlBundles machine running t = .ok () ∧
        (∃ name, format.projectName machine root.path root.file.projectName = .ok name) ∧
        DeclaredTwice t.loaded := by
  obtain ⟨howned, habsolute, -⟩ := readRoot_ok hroot
  refine ⟨?_, ?_, ?_, ?_⟩
  · intro hfinite
    obtain ⟨rounds, r, hr⟩ := traverse_terminates running howned hfinite
    exact ⟨rounds, _, congrArg _ hr⟩
  · intro t ht
    have hwalked : Walked machine format root t :=
      ht.invariant (walked_start howned) fun _ _ h hstep => h.step hstep
    exact reads_once hwalked
  · intro rounds loaded hload
    have htree : LoadedTree machine format root loaded.files := loadFrom_tree howned hload
    obtain ⟨t, -, hfinish⟩ := loadFrom_ok hload
    have hpaths : (t.loaded.map LoadedFile.path).Nodup := by
      rw [← (finishLoad_files hfinish).1]
      exact htree.nodup
    refine ⟨htree.nodup, fun f hf => htree.clean habsolute hf, ?_, finishLoad_merge hpaths hfinish⟩
    intro q
    exact htree.mem_iff_reaches q
  · intro rounds
    unfold loadFrom
    constructor
    · rintro ⟨r, hr, hfails⟩
      obtain ⟨walked, hwalked, rfl⟩ := Option.map_eq_some_iff.mp hr
      rcases failsTwice_bind.mp hfails with hwalk | ⟨t, rfl, hfinish⟩
      · exact absurd hwalk (NoDuplicate.traverse hwalked).not_fails
      · have hpaths := ((walked_traverse howned hwalked).1.part howned).nodup
        exact ⟨t, hwalked, (finishLoad_fails hpaths).mp hfinish⟩
    · rintro ⟨t, ht, hfinish⟩
      have hpaths := ((walked_traverse howned ht).1.part howned).nodup
      exact ⟨_, congrArg _ ht, (finishLoad_fails hpaths).mpr hfinish⟩

/-- Two files that include each other, and a third that both include. -/
def mutualIncludes : Machine :=
  let file (includes : List IncludeEntry) (name : String) : ConfigFile :=
    { includes := includes, containers := .single name {} }
  Machine.inMemory (Paths.ofText ['/', 'p']) (Paths.ofText ['/', 'h'])
    [ (Paths.ofText "/p/batect.yml".toList,
      file [.file "a.yml".toList, .file "b.yml".toList] "root"),
      (Paths.ofText "/p/a.yml".toList,
        file [.file "batect.yml".toList, .file "x/../b.yml".toList] "a"),
      (Paths.ofText "/p/b.yml".toList, file [.file "./b.yml".toList] "b") ]
    []

/-- The root of `mutualIncludes`, as it is read. -/
def mutualRoot : LoadedFile where
  path := Paths.ofText "/p/batect.yml".toList
  file := ((mutualIncludes.readYaml (Paths.ofText "/p/batect.yml".toList)).toOption).getD {}
  boundary := none

/-- Over a graph with cycles the load ends, with every file once and every container kept. -/
theorem include_traversal_mutual : ∃ loaded,
    loadFrom mutualIncludes .compat none 10 mutualRoot = some (.ok loaded) ∧
      loaded.files.map LoadedFile.path =
        ["/p/batect.yml", "/p/a.yml", "/p/b.yml"].map (fun p => Paths.ofText p.toList) ∧
      loaded.config.containers.keys = ["root", "a", "b"] ∧
      FiniteGraph mutualIncludes .compat mutualRoot ∧ MergeOf loaded loaded.files := by
  have hrun : Loop.succeeds (fun loaded : LoadedConfig => decide (loaded.files.map LoadedFile.path =
        ["/p/batect.yml", "/p/a.yml", "/p/b.yml"].map (fun p => Paths.ofText p.toList) ∧
      loaded.config.containers.keys = ["root", "a", "b"]))
      (loadFrom mutualIncludes .compat none 10 mutualRoot) = true := by decide +kernel
  obtain ⟨loaded, hloaded, htest⟩ := Loop.exists_of_succeeds hrun
  obtain ⟨hfiles, hkeys⟩ := of_decide_eq_true htest
  have hroot : readRoot mutualIncludes .compat mutualRoot.path = .ok mutualRoot := by rfl
  obtain ⟨-, -, hreach, hmerge⟩ := (include_traversal none hroot).2.2.1 10 loaded hloaded
  exact ⟨loaded, hloaded, hfiles, hkeys, ⟨_, fun q hq => (hreach q).mpr hq⟩, hmerge⟩

/-- A native project without a name that declares one task in two files. -/
def namelessProject : Machine :=
  let file (includes : List IncludeEntry) : ConfigFile :=
    { includes := includes, tasks := .single "build" {} }
  Machine.inMemory (Paths.ofText ['/', 'p']) (Paths.ofText ['/', 'h'])
    [ (Paths.ofText "/p/ratect.toml".toList, file [.file "a.toml".toList]),
      (Paths.ofText "/p/a.toml".toList, file []) ]
    []

/-- The root of `namelessProject`, as it is read. -/
def namelessRoot : LoadedFile where
  path := Paths.ofText "/p/ratect.toml".toList
  file := ((namelessProject.readToml (Paths.ofText "/p/ratect.toml".toList)).toOption).getD {}
  boundary := none

/-- A loaded file declares the task that the project declares twice. -/
def declaresBuild (t : Traversal) (path : String) : Prop :=
  ∃ f ∈ t.loaded, f.path = Paths.ofText path.toList ∧ "build" ∈ f.file.taskEntries.map Prod.fst

instance (t : Traversal) (path : String) : Decidable (declaresBuild t path) :=
  inferInstanceAs (Decidable (∃ f ∈ t.loaded, _ ∧ _))

/-- The walk ends, the task stands in two of the files, and the load fails over the project's
name. -/
theorem duplicate_without_project_name : ¬ ∀ (machine : Machine) (format : ConfigFormat)
    (running : Option String) (rounds : ℕ) (path : Path) (root : LoadedFile) (t : Traversal),
    readRoot machine format path = .ok root →
      traverse machine format running rounds root = some (.ok t) →
      ((∃ r, loadFrom machine format running rounds root = some r ∧ FailsTwice r) ↔
        DeclaredTwice t.loaded) := by
  intro hclaim
  have hrun : Loop.succeeds
      (fun t => decide (declaresBuild t "/p/ratect.toml" ∧ declaresBuild t "/p/a.toml"))
      (traverse namelessProject .native none 10 namelessRoot) = true := by decide +kernel
  obtain ⟨t, ht, htest⟩ := Loop.exists_of_succeeds hrun
  obtain ⟨⟨f, hf, hfpath, hfbuild⟩, ⟨g, hg, hgpath, hgbuild⟩⟩ := of_decide_eq_true htest
  have htwice : DeclaredTwice t.loaded := by
    refine Or.inl ⟨f, hf, g, hg, ?_, "build", hfbuild, hgbuild⟩
    rw [hfpath, hgpath]
    decide
  obtain ⟨r, hr, hfails⟩ :=
    (hclaim namelessProject .native none 10 namelessRoot.path namelessRoot t rfl ht).mpr
    htwice
  have hmissing : Loop.failure (loadFrom namelessProject .native none 10 namelessRoot) =
      some (.missingProjectName namelessRoot.path) := by decide +kernel
  obtain ⟨kind, name, files, rfl⟩ := hfails
  rw [hr] at hmissing
  cases hmissing

end results

end Ratect
