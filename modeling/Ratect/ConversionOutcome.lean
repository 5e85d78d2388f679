import Ratect.ConversionPlaces

/-! # How a conversion ends

What `convert_project` answers for the files that a load found.  It fails for what its errors say,
and the errors that it calls bugs never happen, but for one: a local include of an owned file that
reaches a file loaded under a bundle.  Where it succeeds, it converts the owned files in order, and
lists each check of a container that applies once (`conversion_outcome`). -/

namespace Ratect

open Paths (Path)

variable {machine : Machine} {root : LoadedFile} {loaded : LoadedConfig}

/-! ### Sources and targets -/

/-- The sources of a conversion, with their targets. -/
def LoadedConfig.targets (loaded : LoadedConfig) : Targets :=
  (loaded.ownedFiles.map LoadedFile.path).zip (targetsOf loaded.ownedFiles)

theorem length_targetsOf (files : List LoadedFile) : (targetsOf files).length = files.length := by
  cases files with
  | nil => rfl
  | cons root includes => rw [targetsOf, List.length_cons, List.length_cons, List.length_map]

theorem targets_sources (loaded : LoadedConfig) :
    loaded.targets.map Prod.fst = loaded.ownedFiles.map LoadedFile.path := by
  refine List.map_fst_zip ?_
  rw [length_targetsOf, List.length_map]

theorem Targets.get?_mem {targets : Targets} {source target : Path}
    (h : targets.get? source = some target) : (source, target) ∈ targets := by
  obtain ⟨e, he, rfl⟩ := Option.map_eq_some_iff.mp h
  have hsource : e.1 = source := by simpa using List.find?_some he
  rw [← hsource]
  exact List.mem_of_find?_eq_some he

theorem Targets.get?_isSome {targets : Targets} {source : Path} :
    (targets.get? source).isSome = true ↔ source ∈ targets.map Prod.fst := by
  unfold Targets.get?
  rw [Option.isSome_map, List.find?_isSome, List.mem_map]
  simp

theorem Found.owned_nodup (h : Found machine root loaded) :
    (loaded.ownedFiles.map LoadedFile.path).Nodup :=
  (List.filter_sublist.map LoadedFile.path).nodup h.tree.nodup

theorem Found.owned_rooted (h : Found machine root loaded) :
    ∃ includes, loaded.ownedFiles = root :: includes := by
  obtain ⟨rest, hrest⟩ := h.tree.rooted
  refine ⟨rest.filter fun file => file.boundary.isNone, ?_⟩
  unfold LoadedConfig.ownedFiles
  rw [hrest, List.filter_cons_of_pos (by rw [h.tree.owned]; rfl)]

theorem withTomlExtension_rootTarget (p : Path) :
    Paths.withTomlExtension (rootTarget p) = rootTarget p := by
  unfold rootTarget
  rw [show [Paths.Component.normal nativeConfigFile] =
    [] ++ [.normal nativeConfigFile] from rfl, Paths.join_concat,
    Paths.withTomlExtension_concat]
  have hname : nativeConfigFile.toml = nativeConfigFile := by
    rw [Paths.Name.mk.injEq]
    decide
  rw [hname]

/-- A target has the extension of a TOML file. -/
theorem targets_toml {e : Path × Path} (he : e ∈ loaded.targets) :
    Paths.withTomlExtension e.2 = e.2 := by
  have hmem := List.of_mem_zip (a := e.1) (b := e.2) he
  cases howned : loaded.ownedFiles with
  | nil =>
      rw [howned] at hmem
      cases hmem.2
  | cons first includes =>
      rw [howned, targetsOf] at hmem
      rcases List.mem_cons.mp hmem.2 with heq | hin
      · rw [heq]
        exact withTomlExtension_rootTarget _
      · obtain ⟨file, -, heq⟩ := List.mem_map.mp hin
        rw [← heq]
        exact Paths.withTomlExtension_idem _

/-- What `checkTargets` has looked for. -/
theorem checkTargets_ok {seen targets : Targets} (h : checkTargets seen targets = .ok ()) :
    (∀ e ∈ targets, e.2 ≠ e.1) ∧ (targets.map Prod.snd).Nodup ∧
      ∀ e ∈ seen, ∀ e' ∈ targets, e.2 ≠ e'.2 := by
  induction targets generalizing seen with
  | nil => simp
  | cons e rest ih =>
      unfold checkTargets at h
      split at h
      · cases h
      · next hself =>
          split at h
          · cases h
          · next hseen =>
              obtain ⟨hne, hnodup, hclear⟩ := ih h
              rw [List.find?_eq_none] at hseen
              refine ⟨List.forall_mem_cons.mpr ⟨hself, hne⟩, ?_, ?_⟩
              · rw [List.map_cons, List.nodup_cons]
                refine ⟨?_, hnodup⟩
                intro hmem
                obtain ⟨e', he', heq⟩ := List.mem_map.mp hmem
                exact hclear e (List.mem_append_right _ List.mem_cons_self) e' he' heq.symm
              · intro s hs e' he'
                rcases List.mem_cons.mp he' with rfl | he'
                · simpa using hseen s hs
                · exact hclear s (List.mem_append_left _ hs) e' he'

/-- Why `checkTargets` fails. -/
theorem checkTargets_error {seen targets : Targets} {e : ConvertError}
    (h : checkTargets seen targets = .error e) :
    (∃ source, e = .overwritesItself source ∧ (source, source) ∈ targets) ∨
      ∃ previous source target, e = .sameTarget previous source target ∧
        [(previous, target), (source, target)].Sublist (seen ++ targets) := by
  induction targets generalizing seen with
  | nil => cases h
  | cons t rest ih =>
      unfold checkTargets at h
      split at h
      · next hself =>
          cases h
          refine Or.inl ⟨t.1, rfl, ?_⟩
          rw [List.mem_cons]
          exact Or.inl (Prod.ext rfl hself.symm)
      · split at h
        · next previous hprevious =>
            cases h
            have htarget : previous.2 = t.2 := by simpa using List.find?_some hprevious
            have hmem : (previous.1, t.2) ∈ seen := htarget ▸ List.mem_of_find?_eq_some hprevious
            have hone : [(t.1, t.2)].Sublist (t :: rest) :=
              List.singleton_sublist.mpr List.mem_cons_self
            exact Or.inr ⟨previous.1, t.1, t.2, rfl, (List.singleton_sublist.mpr hmem).append hone⟩
        · rcases ih h with ⟨source, rfl, hmem⟩ | ⟨previous, source, target, rfl, hsub⟩
          · exact Or.inl ⟨source, rfl, List.mem_cons_of_mem _ hmem⟩
          · rw [List.append_assoc, List.singleton_append] at hsub
            exact Or.inr ⟨previous, source, target, rfl, hsub⟩

/-! ### Include entries -/

/-- An entry leads to a file of its own that declares a Git include, or reaches one that does. -/
def IncludeEntry.NeedsNestedGrant (machine : Machine) (loaded : LoadedConfig) (declaring : Path)
    (entry : IncludeEntry) : Prop :=
  entry.remote.isSome = true ∧
    ∃ g ∈ loaded.files, entryTarget machine .compat declaring entry = some g.path ∧
    LeadsToGit machine loaded g.path

/-- The clone that the load has for a Git include of a loaded file. -/
theorem Found.clone (h : Found machine root loaded) {f : LoadedFile} (hf : f ∈ loaded.files)
    {entry : IncludeEntry} (hentry : entry ∈ f.file.includes) {repo : Remote} {gitRef : String}
    (hremote : entry.remote = some (repo, gitRef)) :
    ∃ clone, (loaded.gitClones.find? fun e => e.1 = (repo, gitRef)).map Prod.snd = some clone ∧
      machine.ensureCached repo gitRef = .ok clone := by
  have hkey := h.cloned f hf entry hentry _ hremote
  cases hfind : loaded.gitClones.find? fun e => e.1 = (repo, gitRef) with
  | none =>
      obtain ⟨e, he, hfst⟩ := List.mem_map.mp hkey
      have hne := List.find?_eq_none.mp hfind e he
      exact absurd (by simpa using hfst) hne
  | some e =>
      have hkey : e.1 = (repo, gitRef) := by simpa using List.find?_some hfind
      refine ⟨e.2, rfl, ?_⟩
      have hcached := h.clonesOf e (List.mem_of_find?_eq_some hfind)
      rwa [hkey] at hcached

/-- The file that a Git include of a loaded file has loaded, whether its path was pinned or not. -/
theorem Found.bundleFile (h : Found machine root loaded) {f : LoadedFile} (hf : f ∈ loaded.files)
    {repo : Remote} {gitRef : String} {path : Option Text} {hostPaths : Bool}
    {nestedGit : Option Bool} {reviewed : Option String}
    (hentry : .git repo gitRef path hostPaths nestedGit reviewed ∈ f.file.includes) {clone : Path}
    (hclone : machine.ensureCached repo gitRef = .ok clone) :
    ∃ g ∈ loaded.files,
      entryTarget machine .compat f.path
        (.git repo gitRef path hostPaths nestedGit reviewed) = some g.path ∧
      absolutePath machine (Paths.join clone
        (Paths.ofText ((pinnedPath machine clone path).1.getD batectBundleFile))) =
        .ok g.path := by
  obtain ⟨g, hg, hfollowed, -⟩ := h.tree.delivered f hf _ hentry
  refine ⟨g, hg, hfollowed.target, ?_⟩
  have htarget := hfollowed.target
  simp only [entryTarget, hclone] at htarget
  obtain ⟨candidate, hcandidate, hat⟩ := List.exists_of_findSome?_eq_some htarget
  have hpinned : (pinnedPath machine clone path).1.getD batectBundleFile =
      path.getD batectBundleFile := by
    unfold pinnedPath
    cases path with
    | some path => rfl
    | none =>
        simp only
        split <;> rfl
  have hname : candidate = path.getD batectBundleFile := by
    cases path with
    | some path => exact List.mem_singleton.mp hcandidate
    | none => exact List.mem_singleton.mp hcandidate
  rw [hpinned, ← hname]
  exact fileAt_some hat

section entries

variable {f : LoadedFile} {targets : Targets}

/-- A local include is converted if its file is, and otherwise its file was loaded under a
bundle. -/
theorem convertInclude_file (h : Found machine root loaded) (hf : f ∈ loaded.files)
    (htargets : targets.map Prod.fst = loaded.ownedFiles.map LoadedFile.path) {path : Text}
    (hentry : .file path ∈ f.file.includes) :
    ∃ g ∈ loaded.files, Ratect.resolveLocal machine f.path path = .ok g.path ∧
      ((∃ target, targets.get? g.path = some target ∧
          convertInclude machine loaded targets f.path (.file path) = .ok
            (.file (Paths.withFileNameText path
              (((Paths.fileName target).map Paths.Name.text).getD [])), [])) ∨
        g.boundary.isSome = true ∧
          convertInclude machine loaded targets f.path (.file path) =
            .error (.notReached g.path f.path)) := by
  obtain ⟨g, hg, hresolve, -⟩ := h.resolveLocal hf hentry
  refine ⟨g, hg, hresolve, ?_⟩
  unfold convertInclude
  cases htarget : targets.get? g.path with
  | some target =>
      refine Or.inl ⟨target, rfl, Except.bind_eq_ok.mpr ⟨g.path, hresolve, ?_⟩⟩
      rw [htarget]
      rfl
  | none =>
      refine Or.inr ⟨?_, Except.bind_eq_error.mpr (Or.inr ⟨g.path, hresolve, by rw [htarget]⟩)⟩
      rw [Option.isSome_iff_ne_none]
      intro hboundary
      have hmem : g.path ∈ targets.map Prod.fst := by
        rw [htargets]
        exact List.mem_map_of_mem (mem_owned.mpr ⟨hg, hboundary⟩)
      have hsome := Targets.get?_isSome.mpr hmem
      rw [htarget] at hsome
      cases hsome

/-- A Git include is always converted, and says whether what it loads needs the grant for nested
ones. -/
theorem convertInclude_git (targets : Targets) (h : Found machine root loaded)
    (hf : f ∈ loaded.files) {repo : Remote} {gitRef : String} {path : Option Text}
    {hostPaths : Bool} {nestedGit : Option Bool} {reviewed : Option String}
    (hentry : .git repo gitRef path hostPaths nestedGit reviewed ∈ f.file.includes) :
    ∃ clone, machine.ensureCached repo gitRef = .ok clone ∧ ∃ nested : Bool,
      convertInclude machine loaded targets f.path
        (.git repo gitRef path hostPaths nestedGit reviewed) =
        .ok (.git repo gitRef (pinnedPath machine clone path).1 hostPaths none none,
          (if (pinnedPath machine clone path).2 then [offersNativeFileCheck repo gitRef] else []) ++
            if nested then [declaresGitIncludesCheck repo gitRef] else []) ∧
      (nested = true ↔ IncludeEntry.NeedsNestedGrant machine loaded f.path
        (.git repo gitRef path hostPaths nestedGit reviewed)) := by
  obtain ⟨clone, hfind, hclone⟩ := h.clone hf hentry rfl
  obtain ⟨g, hg, htarget, hstart⟩ := h.bundleFile hf hentry hclone
  obtain ⟨nested, hnested, hiff⟩ := bundleDeclaresGitIncludes_ok h hg hstart
  refine ⟨clone, hclone, nested, ?_, ?_⟩
  · simp only [convertInclude, hfind, hnested]
    rfl
  · rw [hiff]
    constructor
    · intro hleads
      exact ⟨rfl, g, hg, htarget, hleads⟩
    · rintro ⟨-, g', hg', htarget', hleads⟩
      rw [htarget] at htarget'
      rwa [Option.some.inj htarget']

/-- The items about an entry are about no container, and one of them asks for the grant just where
it is needed. -/
theorem convertInclude_checks (h : Found machine root loaded) (hf : f ∈ loaded.files)
    (htargets : targets.map Prod.fst = loaded.ownedFiles.map LoadedFile.path)
    {entry entry' : IncludeEntry} {checks : List ConversionCheck} (hentry : entry ∈ f.file.includes)
    (hconvert : convertInclude machine loaded targets f.path entry = .ok (entry', checks)) :
    (∀ check ∈ checks, check.container = none) ∧
      ((∃ check ∈ checks, check.kind = .bundleDeclaresGitIncludes) ↔
        entry.NeedsNestedGrant machine loaded f.path) := by
  cases entry with
  | file path =>
      obtain ⟨g, -, -, ⟨target, -, hok⟩ | ⟨-, hfail⟩⟩ := convertInclude_file h hf htargets hentry
      · rw [hok] at hconvert
        cases hconvert
        refine ⟨fun check hcheck => absurd hcheck List.not_mem_nil, ?_⟩
        constructor
        · rintro ⟨check, hcheck, -⟩
          cases hcheck
        · rintro ⟨hremote, -⟩
          cases hremote
      · rw [hfail] at hconvert
        cases hconvert
  | git repo gitRef path hostPaths nestedGit reviewed =>
      obtain ⟨clone, -, nested, hok, hiff⟩ := convertInclude_git targets h hf hentry
      rw [hok] at hconvert
      cases hconvert
      rw [← hiff]
      constructor
      · intro check hcheck
        rw [List.mem_append, List.mem_ite_nil_right, List.mem_ite_nil_right, List.mem_singleton,
          List.mem_singleton] at hcheck
        rcases hcheck with ⟨-, rfl⟩ | ⟨-, rfl⟩ <;> rfl
      · constructor
        · rintro ⟨check, hcheck, hkind⟩
          rw [List.mem_append, List.mem_ite_nil_right, List.mem_ite_nil_right, List.mem_singleton,
            List.mem_singleton] at hcheck
          rcases hcheck with ⟨-, rfl⟩ | ⟨hnested, -⟩
          · cases hkind
          · exact hnested
        · rintro rfl
          exact ⟨_, List.mem_append_right _ List.mem_cons_self, rfl⟩

end entries

/-! ### One file -/

section files

variable {unicode : Char → Bool} {render : Document → Option String → Except String Text}
    {writtenFor : String} {targets : Targets} {placed : List (Path × ConversionCheck)}
    {f : LoadedFile} {e : ConvertError}

/-- Why a container is not converted. -/
theorem convertedContainer_error {name : String} {container : Config.Container}
    (h : convertedContainer unicode name container = .error e) :
    ∃ user, container.runAsCurrentUser = some user ∧ user.enabled = true ∧
      ((e = .identityBeside name ∧ container.identity.isSome = true) ∨
        (e = .homeless name ∧ user.homeDirectory = none)) := by
  unfold convertedContainer at h
  cases huser : container.runAsCurrentUser with
  | none =>
      rw [huser] at h
      cases h
  | some user =>
      rw [huser] at h
      simp only at h
      split at h
      · next henabled =>
          refine ⟨user, rfl, henabled, ?_⟩
          by_cases hidentity : container.identity = none
          · rw [Except.ensure_eq_ok.mpr hidentity] at h
            cases hhome : user.homeDirectory with
            | none =>
                rw [hhome] at h
                cases h
                exact Or.inr ⟨rfl, rfl⟩
            | some home =>
                rw [hhome] at h
                cases h
          · unfold Except.ensure at h
            rw [if_neg hidentity] at h
            cases h
            exact Or.inl ⟨rfl, Option.isSome_iff_ne_none.mpr hidentity⟩
      · cases h

/-- What a converted file is made of. -/
theorem convertFile_ok {isRoot : Bool} {target : Path} {c : ConvertedFile}
    (h : convertFile machine loaded unicode render writtenFor targets placed isRoot
      (f, target) = .ok c) :
    ∃ entries containers toml,
      f.file.includes.mapM (convertInclude machine loaded targets f.path) = .ok entries ∧
      f.file.containers.mapEntriesM (convertedContainer unicode) = .ok containers ∧
      c = { source := f.path
            target := target
            toml := toml
            checks := entries.flatMap Prod.snd ++ (placed.filter fun e => e.1 = f.path).map Prod.snd
            readBack := Document.readBack
              { projectName := if isRoot then some loaded.config.projectName else none
                containers := containers
                tasks := f.file.tasks
                configVariables := f.file.configVariables
                includes := entries.map Prod.fst
                forbidTelemetry := f.file.forbidTelemetry }
              (if isRoot then some writtenFor else none) } := by
  unfold convertFile at h
  obtain ⟨⟨document, checks⟩, hdocument, h⟩ := Except.bind_eq_ok.mp h
  unfold documentOf at hdocument
  obtain ⟨entries, hentries, hdocument⟩ := Except.bind_eq_ok.mp hdocument
  obtain ⟨containers, hcontainers, hdocument⟩ := Except.bind_eq_ok.mp hdocument
  cases hdocument
  simp only at h
  split at h
  · cases h
  · next toml _ =>
      cases h
      exact ⟨entries, containers, toml, hentries, hcontainers, rfl⟩

/-- Why a file is not converted. -/
theorem convertFile_error {isRoot : Bool} {target : Path}
    (h : convertFile machine loaded unicode render writtenFor targets placed isRoot
      (f, target) = .error e) :
    (∃ entry ∈ f.file.includes, convertInclude machine loaded targets f.path entry = .error e) ∨
      (∃ entry ∈ f.file.containers.entries, convertedContainer unicode entry.1 entry.2 = .error e) ∨
      ∃ document checks message,
        documentOf machine loaded unicode targets
          (if isRoot then some loaded.config.projectName else none) f =
          .ok (document, checks) ∧
        render document (if isRoot then some writtenFor else none) = .error message ∧
        e = .rendering f.path message := by
  unfold convertFile at h
  rcases Except.bind_eq_error.mp h with hdocument | ⟨⟨document, checks⟩, hdocument, h⟩
  · unfold documentOf at hdocument
    rcases Except.bind_eq_error.mp hdocument with hentries | ⟨entries, -, hdocument⟩
    · exact Or.inl (IndexMap.exists_of_mapM_error hentries)
    · rcases Except.bind_eq_error.mp hdocument with hcontainers | ⟨containers, -, hdocument⟩
      · exact Or.inr (Or.inl (IndexMap.mapEntriesM_error hcontainers))
      · cases hdocument
  · simp only at h
    split at h
    · next message hrender =>
        cases h
        exact Or.inr (Or.inr ⟨document, checks, message, hdocument, hrender, rfl⟩)
    · cases h

/-! ### All files -/

/-- What a conversion that succeeds has done. -/
theorem convertProject_ok {files : List ConvertedFile}
    (h : convertProject machine loaded unicode render writtenFor = .ok files) :
    ∃ first includes placed file rest, loaded.ownedFiles = first :: includes ∧
      checkTargets [] loaded.targets = .ok () ∧ checksByFile loaded unicode = .ok placed ∧
      convertFile machine loaded unicode render writtenFor loaded.targets placed true
        (first, rootTarget first.path) =
        .ok file ∧
      List.Forall₂ (fun f c =>
        convertFile machine loaded unicode render writtenFor loaded.targets placed false
        (f, Paths.withTomlExtension f.path) = .ok c) includes rest ∧ files = file :: rest := by
  unfold convertProject at h
  cases howned : loaded.ownedFiles with
  | nil =>
      rw [howned] at h
      cases h
  | cons first includes =>
      simp only [howned, targetsOf] at h
      obtain ⟨⟨⟩, htargets, h⟩ := Except.bind_eq_ok.mp h
      obtain ⟨placed, hplaced, h⟩ := Except.bind_eq_ok.mp h
      obtain ⟨file, hfile, h⟩ := Except.bind_eq_ok.mp h
      obtain ⟨rest, hrest, h⟩ := Except.bind_eq_ok.mp h
      obtain ⟨⟨⟩, -, h⟩ := Except.bind_eq_ok.mp h
      cases h
      have htable : (List.map LoadedFile.path (first :: includes)).zip
          (rootTarget first.path :: includes.map fun file => Paths.withTomlExtension file.path) =
            loaded.targets := by
        unfold LoadedConfig.targets
        rw [howned]
        rfl
      rw [htable] at htargets hfile hrest
      refine ⟨first, includes, placed, file, rest, rfl, htargets, hplaced, hfile, ?_, rfl⟩
      have hpairs : includes.zip (includes.map fun file => Paths.withTomlExtension file.path) =
          includes.map fun file => (file, Paths.withTomlExtension file.path) :=
            List.map_prod_left_eq_zip.symm
      rw [hpairs] at hrest
      exact List.forall₂_map_left_iff.mp (Except.mapM_eq_ok.mp hrest)

/-- Why a conversion fails. -/
theorem convertProject_error (h : Found machine root loaded)
    (hfail : convertProject machine loaded unicode render writtenFor = .error e) :
    checkTargets [] loaded.targets = .error e ∨
      ∃ f ∈ loaded.ownedFiles, ∃ isRoot target placed,
        (isRoot = true ↔ loaded.ownedFiles.head? = some f) ∧
        convertFile machine loaded unicode render writtenFor loaded.targets placed isRoot
          (f, target) = .error e := by
  obtain ⟨includes, howned⟩ := h.owned_rooted
  obtain ⟨placed, hplaced, -, hlisted⟩ := checksByFile_ok h unicode
  unfold convertProject at hfail
  simp only [howned, targetsOf] at hfail
  have htable : (List.map LoadedFile.path (root :: includes)).zip
      (rootTarget root.path :: includes.map fun file => Paths.withTomlExtension file.path) =
        loaded.targets := by
    unfold LoadedConfig.targets
    rw [howned]
    rfl
  rw [htable] at hfail
  rcases Except.bind_eq_error.mp hfail with htargets | ⟨⟨⟩, -, hfail⟩
  · exact Or.inl htargets
  refine Or.inr ?_
  rw [hplaced] at hfail
  rcases Except.bind_eq_error.mp hfail with hnone | ⟨_, hsome, hfail⟩
  · cases hnone
  cases hsome
  rcases Except.bind_eq_error.mp hfail with hfile | ⟨file, -, hfail⟩
  · exact ⟨root, howned ▸ List.mem_cons_self, true, _, placed, by simp [howned], hfile⟩
  rcases Except.bind_eq_error.mp hfail with hrest | ⟨rest, -, hfail⟩
  · obtain ⟨pair, hpair, herror⟩ := IndexMap.exists_of_mapM_error hrest
    have hinclude : pair.1 ∈ includes := (List.of_mem_zip (a := pair.1) (b := pair.2) hpair).1
    refine ⟨pair.1, ?_, false, pair.2, placed, iff_of_false (by simp) fun hhead => ?_, herror⟩
    · rw [howned]
      exact List.mem_cons_of_mem _ hinclude
    · have hnodup := List.Nodup.of_map _ h.owned_nodup
      rw [howned] at hhead hnodup
      cases hhead
      exact (List.nodup_cons.mp hnodup).1 hinclude
  -- Every check is placed under an owned file, so none is left over.
  have hleft : (placed.filter fun e =>
      decide (e.1 ∉ List.map LoadedFile.path (root :: includes))) = [] := by
    rw [List.filter_eq_nil_iff]
    intro e he
    obtain ⟨⟨f, hf, hpath⟩, -⟩ := hlisted e he
    rw [howned] at hf
    rw [hpath, decide_eq_true_eq, not_not]
    exact List.mem_map_of_mem hf
  rw [Except.ensure_eq_ok.mpr hleft] at hfail
  cases hfail

/-! ### The outcome -/

/-- What a conversion that fails has met.  Nothing else makes it fail. -/
def ConvertError.CausedBy (machine : Machine) (loaded : LoadedConfig) (unicode : Char → Bool)
    (render : Document → Option String → Except String Text)
    (writtenFor : String) : ConvertError → Prop
  | overwritesItself source => (source, source) ∈ loaded.targets
  | sameTarget previous source target =>
      [(previous, target), (source, target)].Sublist loaded.targets
  | identityBeside name =>
      ∃ f ∈ loaded.ownedFiles, ∃ container, (name, container) ∈ f.file.containers.entries ∧
      container.identity.isSome = true ∧
        ∃ user, container.runAsCurrentUser = some user ∧ user.enabled = true
  | homeless name =>
      ∃ f ∈ loaded.ownedFiles, ∃ container, (name, container) ∈ f.file.containers.entries ∧
      ∃ user, container.runAsCurrentUser = some user ∧ user.enabled = true ∧
        user.homeDirectory = none
  | rendering source message => ∃ f ∈ loaded.ownedFiles, f.path = source ∧
      ∃ isRoot document checks, (isRoot = true ↔ loaded.ownedFiles.head? = some f) ∧
        documentOf machine loaded unicode loaded.targets
          (if isRoot then some loaded.config.projectName else none) f = .ok (document, checks) ∧
        render document (if isRoot then some writtenFor else none) = .error message
  | notReached target declaring => ∃ f ∈ loaded.ownedFiles, f.path = declaring ∧
      ∃ g ∈ loaded.files, g.path = target ∧ g.boundary.isSome = true ∧
        ∃ path, .file path ∈ f.file.includes ∧ resolveLocal machine declaring path = .ok target
  | _ => False

/-- What a conversion that succeeds answers for. -/
structure Answers (machine : Machine) (loaded : LoadedConfig) (unicode : Char → Bool)
    (files : List ConvertedFile) : Prop where
  sources : files.map ConvertedFile.source = loaded.ownedFiles.map LoadedFile.path
  targets : files.map ConvertedFile.target = targetsOf loaded.ownedFiles
  distinct : (files.map ConvertedFile.target).Nodup
  apart : ∀ c ∈ files, ∀ f ∈ loaded.ownedFiles,
    c.target = f.path → loaded.ownedFiles.head? = some f ∧ c.source ≠ f.path
  once : ((files.flatMap ConvertedFile.checks).filter fun check => check.container.isSome).Perm
    ((conversionChecks unicode loaded.config).filter loaded.applies)
  listed : ∀ c ∈ files, ∀ check ∈ c.checks, check.container.isSome = true →
    ListedUnder loaded check c.source
  nested : ∀ c ∈ files, ∀ f ∈ loaded.ownedFiles, f.path = c.source →
    ((∃ check ∈ c.checks, check.container = none ∧ check.kind = .bundleDeclaresGitIncludes) ↔
      ∃ entry ∈ f.file.includes, entry.NeedsNestedGrant machine loaded f.path)

theorem causedBy_of_error (h : Found machine root loaded)
    (hfail : convertProject machine loaded unicode render writtenFor = .error e) :
    e.CausedBy machine loaded unicode render writtenFor := by
  rcases convertProject_error h hfail with htargets | ⟨f, hf, isRoot, target, placed, hroot, hfile⟩
  · rcases checkTargets_error htargets with
        ⟨source, rfl, hmem⟩ | ⟨previous, source, target, rfl, hsub⟩
    · exact hmem
    · exact hsub
  · rcases convertFile_error hfile with
        ⟨entry, hentry, hinclude⟩ | ⟨c, hc, hcontainer⟩ |
        ⟨document, checks, message, hdocument, hrender, rfl⟩
    · have hfiles := (mem_owned.mp hf).1
      cases entry with
      | file path =>
          obtain ⟨g, hg, hresolve, ⟨_, -, hok⟩ | ⟨hboundary, herror⟩⟩ :=
            convertInclude_file h hfiles (targets_sources loaded) hentry
          · rw [hok] at hinclude
            cases hinclude
          · rw [herror] at hinclude
            cases hinclude
            exact ⟨f, hf, rfl, g, hg, rfl, hboundary, path, hentry, hresolve⟩
      | git repo gitRef path hostPaths nestedGit reviewed =>
          obtain ⟨_, -, _, hok, -⟩ := convertInclude_git loaded.targets h hfiles hentry
          rw [hok] at hinclude
          cases hinclude
    · obtain ⟨user, huser, henabled, ⟨rfl, hidentity⟩ | ⟨rfl, hhome⟩⟩ :=
        convertedContainer_error hcontainer
      · exact ⟨f, hf, c.2, hc, hidentity, user, huser, henabled⟩
      · exact ⟨f, hf, c.2, hc, user, huser, henabled, hhome⟩
    · exact ⟨f, hf, rfl, isRoot, document, checks, hroot, hdocument, hrender⟩

/-- What a converted file lists: the items of its entries, about no container, and those placed
under it. -/
theorem convertFile_checks (h : Found machine root loaded) (hf : f ∈ loaded.files) {isRoot : Bool}
    {target : Path} {c : ConvertedFile}
    (hc : convertFile machine loaded unicode render writtenFor loaded.targets placed isRoot
      (f, target) = .ok c) :
    c.source = f.path ∧ c.target = target ∧
      ∃ checks, c.checks = checks ++ (placed.filter fun e => e.1 = f.path).map Prod.snd ∧
        (∀ check ∈ checks, check.container = none) ∧
        ((∃ check ∈ checks, check.kind = .bundleDeclaresGitIncludes) ↔
          ∃ entry ∈ f.file.includes, entry.NeedsNestedGrant machine loaded f.path) := by
  obtain ⟨entries, containers, toml, hentries, -, rfl⟩ := convertFile_ok hc
  refine ⟨rfl, rfl, entries.flatMap Prod.snd, rfl, ?_⟩
  have hall := Except.mapM_eq_ok.mp hentries
  have hone : ∀ entry ∈ f.file.includes, ∀ r,
      convertInclude machine loaded loaded.targets f.path entry = .ok r →
      (∀ check ∈ r.2, check.container = none) ∧
        ((∃ check ∈ r.2, check.kind = .bundleDeclaresGitIncludes) ↔
          entry.NeedsNestedGrant machine loaded f.path) :=
    fun entry hentry r hr => convertInclude_checks h hf (targets_sources loaded) hentry hr
  clear hentries hc
  generalize f.file.includes = includes at hall hone
  induction hall with
  | nil => simp
  | @cons entry r includes entries hr _ ih =>
      obtain ⟨hnone, hiff⟩ := hone entry List.mem_cons_self r hr
      obtain ⟨hrestnone, hrestiff⟩ :=
        ih fun entry' hentry' => hone entry' (List.mem_cons_of_mem _ hentry')
      constructor
      · intro check hcheck
        rw [List.flatMap_cons, List.mem_append] at hcheck
        exact hcheck.elim (hnone check) (hrestnone check)
      · simp only [List.flatMap_cons, List.mem_append, List.mem_cons, or_and_right,
          exists_or, exists_eq_left]
        rw [hiff, hrestiff]

theorem answers_of_ok (h : Found machine root loaded) {files : List ConvertedFile}
    (hok : convertProject machine loaded unicode render writtenFor = .ok files) :
    Answers machine loaded unicode files := by
  obtain ⟨first, includes, placed, file, rest, howned, htargets, hplaced, hfile, hrest, rfl⟩ :=
    convertProject_ok hok
  obtain ⟨placed', hplaced', happlied, hlisted⟩ := checksByFile_ok h unicode
  obtain rfl : placed = placed' := Except.ok.inj (hplaced.symm.trans hplaced')
  obtain ⟨hne, hnodup, -⟩ := checkTargets_ok htargets
  have hfiles : ∀ f ∈ loaded.ownedFiles, f ∈ loaded.files := fun f hf => (mem_owned.mp hf).1
  have hfirst : first ∈ loaded.ownedFiles := howned ▸ List.mem_cons_self
  have hincludes : ∀ f ∈ includes, f ∈ loaded.ownedFiles :=
    fun f hf => howned ▸ List.mem_cons_of_mem _ hf
  obtain ⟨hsource, htarget, -⟩ := convertFile_checks h (hfiles first hfirst) hfile
  have hsources : (file :: rest).map ConvertedFile.source =
      loaded.ownedFiles.map LoadedFile.path := by
    rw [howned, List.map_cons, List.map_cons, hsource]
    congr 1
    exact IndexMap.map_eq_of_forall₂ hrest fun f c hc => by
      obtain ⟨_, _, _, -, -, rfl⟩ := convertFile_ok hc
      rfl
  have htargets' : (file :: rest).map ConvertedFile.target = targetsOf loaded.ownedFiles := by
    rw [howned, targetsOf, List.map_cons, htarget]
    congr 1
    exact IndexMap.map_eq_of_forall₂ hrest fun f c hc => by
      obtain ⟨_, _, _, -, -, rfl⟩ := convertFile_ok hc
      rfl
  have htable : loaded.targets.map Prod.snd = targetsOf loaded.ownedFiles := by
    refine List.map_snd_zip ?_
    rw [length_targetsOf, List.length_map]
  -- Each converted file comes from an owned one.
  have hfrom : ∀ c ∈ file :: rest, ∃ f ∈ loaded.ownedFiles, c.source = f.path ∧
      ∃ checks, c.checks = checks ++ (placed.filter fun e => e.1 = f.path).map Prod.snd ∧
        (∀ check ∈ checks, check.container = none) ∧
        ((∃ check ∈ checks, check.kind = .bundleDeclaresGitIncludes) ↔
          ∃ entry ∈ f.file.includes, entry.NeedsNestedGrant machine loaded f.path) := by
    intro c hc
    rcases List.mem_cons.mp hc with rfl | hc
    · obtain ⟨hsource, -, hchecks⟩ := convertFile_checks h (hfiles first hfirst) hfile
      exact ⟨first, hfirst, hsource, hchecks⟩
    · obtain ⟨f, hf, hconvert⟩ := IndexMap.exists_of_forall₂ hrest hc
      obtain ⟨hsource, -, hchecks⟩ := convertFile_checks h (hfiles f (hincludes f hf)) hconvert
      exact ⟨f, hincludes f hf, hsource, hchecks⟩
  have hcontainer : ∀ e ∈ placed, e.2.container.isSome = true := by
    intro e he
    obtain ⟨-, _, -, _, -, hname, -⟩ := hlisted e he
    rw [hname]
    rfl
  have hplacedOf : ∀ c ∈ file :: rest, c.checks.filter (fun check => check.container.isSome) =
      (placed.filter fun e => e.1 = c.source).map Prod.snd := by
    intro c hc
    obtain ⟨f, -, hsource, checks, hchecks, hnone, -⟩ := hfrom c hc
    rw [hchecks, hsource, List.filter_append, List.filter_eq_nil_iff.mpr, List.nil_append,
      List.filter_eq_self]
    · intro check hcheck
      obtain ⟨e, he, rfl⟩ := List.mem_map.mp hcheck
      exact hcontainer e (List.mem_filter.mp he).1
    · intro check hcheck
      rw [hnone check hcheck]
      simp
  have hpairs : (file :: rest).map (fun c => (c.source, c.target)) = loaded.targets := by
    unfold LoadedConfig.targets
    rw [← hsources, ← htargets', List.zip_map']
  refine ⟨hsources, htargets', htargets' ▸ htable ▸ hnodup, ?_, ?_, ?_, ?_⟩
  · intro c hc f hf htarget
    have hpair : (c.source, c.target) ∈ loaded.targets :=
      hpairs ▸ List.mem_map_of_mem (f := fun c => (c.source, c.target)) hc
    refine ⟨?_, fun hsource => hne _ hpair (htarget.trans hsource.symm)⟩
    rw [howned, List.mem_cons] at hf
    rcases hf with rfl | hf
    · rw [howned]
      rfl
    · -- An include that is a target is its own target.
      have hown : (f.path, Paths.withTomlExtension f.path) ∈ loaded.targets := by
        unfold LoadedConfig.targets
        rw [howned, targetsOf, List.map_cons, List.zip_cons_cons, List.zip_map']
        exact List.mem_cons_of_mem
          _ (List.mem_map_of_mem (f := fun f => (f.path, Paths.withTomlExtension f.path)) hf)
      have hself : Paths.withTomlExtension f.path = f.path := by
        rw [← htarget]
        exact targets_toml hpair
      exact absurd hself (hne _ hown)
  · rw [List.filter_flatMap, List.flatMap_congr hplacedOf, ← happlied]
    have hgroups := IndexMap.perm_groups (l := placed) h.owned_nodup fun e he => by
      obtain ⟨⟨f, hf, hpath⟩, -⟩ := hlisted e he
      rw [hpath]
      exact List.mem_map_of_mem hf
    rw [← hsources, List.flatMap_map] at hgroups
    exact hgroups
  · intro c hc check hcheck hsome
    have hmem : check ∈ c.checks.filter fun check => check.container.isSome :=
      List.mem_filter.mpr ⟨hcheck, hsome⟩
    rw [hplacedOf c hc] at hmem
    obtain ⟨e, he, rfl⟩ := List.mem_map.mp hmem
    obtain ⟨he, hpath⟩ := List.mem_filter.mp he
    obtain ⟨-, hunder⟩ := hlisted e he
    rwa [show e.1 = c.source by simpa using hpath] at hunder
  · intro c hc f hf hpath
    obtain ⟨f', hf', hsource, checks, hchecks, hnone, hiff⟩ := hfrom c hc
    obtain rfl : f' = f :=
      h.tree.path_unique (hfiles f' hf') (hfiles f hf) (hsource.symm.trans hpath.symm)
    rw [← hiff, hchecks]
    constructor
    · rintro ⟨check, hcheck, hcontainerless, hkind⟩
      rcases List.mem_append.mp hcheck with hcheck | hcheck
      · exact ⟨check, hcheck, hkind⟩
      · obtain ⟨e, he, rfl⟩ := List.mem_map.mp hcheck
        have hsome := hcontainer e (List.mem_filter.mp he).1
        rw [hcontainerless] at hsome
        cases hsome
    · rintro ⟨check, hcheck, hkind⟩
      exact ⟨check, List.mem_append_left _ hcheck, hnone check hcheck, hkind⟩

/-- A conversion of what a load found fails only for what its error says, and otherwise answers for
its files. -/
theorem conversion_outcome (unicode : Char → Bool)
    (render : Document → Option String → Except String Text) (writtenFor : String)
    {running : Option String} {rounds : ℕ} {path : Path}
    (h : loadFromFile machine .compat running rounds path = some (.ok loaded)) :
    match convertProject machine loaded unicode render writtenFor with
    | .error e => e.CausedBy machine loaded unicode render writtenFor
    | .ok files => Answers machine loaded unicode files := by
  obtain ⟨root, hfound⟩ := found_of_load h
  split
  · next e hfail => exact causedBy_of_error hfound hfail
  · next files hok => exact answers_of_ok hfound hok

end files

/-- A project with an include of its own, and a bundle with a bundle in it whose container a task
runs. -/
def convertedBundles : Machine :=
  let git (repo : String) : IncludeEntry := .git ⟨repo⟩ "1.0" none true none none
  let file (includes : List IncludeEntry) (name : String) (tasks : IndexMap String Config.Task) :
    ConfigFile :=
    { includes := includes
      containers := .single name { healthCheck := some ⟨none, none, none, none, none⟩ }
      tasks := tasks }
  Machine.inMemory (Paths.ofText "/p".toList) (Paths.ofText "/h".toList)
    [ (Paths.ofText "/p/batect.yml".toList, file [.file "a.yml".toList, git "x"] "root" .empty),
      (Paths.ofText "/p/a.yml".toList, file [] "a" .empty),
      (Paths.ofText "/cache/x/batect-bundle.yml".toList, file [git "y"] "x" .empty),
      (Paths.ofText "/cache/y/batect-bundle.yml".toList,
        file [] "y" (.single "run" { run := some { container := "y" } })) ]
    [ ((⟨"x"⟩, "1.0"), Paths.ofText "/cache/x".toList),
      ((⟨"y"⟩, "1.0"), Paths.ofText "/cache/y".toList) ]

/-- The item about the inner bundle's container is listed under the root, with the one about the
outer bundle. -/
theorem conversion_outcome_nested : ∃ loaded files,
    loadFromFile convertedBundles .compat none 10
      (Paths.ofText "/p/batect.yml".toList) = some (.ok loaded) ∧
      convertProject convertedBundles loaded (fun _ => false) (fun _ _ => .ok [])
        "0.1.0" = .ok files ∧
      files.map (fun c => c.checks.map ConversionCheck.kind) =
        [[.bundleDeclaresGitIncludes, .ungatedTaskContainer], []] ∧
      Answers convertedBundles loaded (fun _ => false) files := by
  have hrun : Loop.succeeds (fun loaded => Loop.succeeds (fun files : List ConvertedFile =>
        decide (files.map (fun c => c.checks.map ConversionCheck.kind) =
          [[.bundleDeclaresGitIncludes, .ungatedTaskContainer], []]))
        (some (convertProject convertedBundles loaded (fun _ => false)
          (fun _ _ => .ok []) "0.1.0")))
      (loadFromFile convertedBundles .compat none 10 (Paths.ofText "/p/batect.yml".toList)) =
        true := by decide +kernel
  obtain ⟨loaded, hloaded, hconvert⟩ := Loop.exists_of_succeeds hrun
  obtain ⟨files, hfiles, hkinds⟩ := Loop.exists_of_succeeds hconvert
  have hfiles := Option.some.inj hfiles
  have houtcome := conversion_outcome (fun _ => false) (fun _ _ => .ok []) "0.1.0" hloaded
  rw [hfiles] at houtcome
  exact ⟨loaded, files, hloaded, hfiles, of_decide_eq_true hkinds, houtcome⟩

end Ratect
