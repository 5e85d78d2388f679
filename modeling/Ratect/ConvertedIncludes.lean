import Ratect.ConvertedFiles

/-! # The include entries of a converted project

An entry of a converted file leads where its source's did (`resolveEntry_native`): a local include
keeps its spelling up to the name, so it resolves beside the file that its source reached; a Git
include loads the same file of its bundle, whether its path was given, pinned or left to the native
loader to find; and a bundle's own entries are what they were. -/

namespace Ratect

open Paths (Path)

variable {machine machine' : Machine}

/-! ### Paths on both machines -/

section extended

variable (h : machine.Extends machine')

include h

theorem absolutePath_extends (path : Path) :
    absolutePath machine' path = absolutePath machine path := by
  unfold absolutePath
  rw [h.currentDir]

theorem expandHomeDirectory_extends (path : Text) :
    expandHomeDirectory machine' path = expandHomeDirectory machine path := by
  unfold expandHomeDirectory
  rw [h.homeDirectory]

theorem localIncludeTarget_extends (dir : Path) (path : Text) :
    localIncludeTarget machine' dir path = localIncludeTarget machine dir path := by
  unfold localIncludeTarget
  rw [expandHomeDirectory_extends h]

/-- The file that an include may read is the same one. -/
theorem includeFileAt_extends {target resolved : Path} {asWritten : Text}
    {boundary : Option Boundary}
    (hfile : includeFileAt machine target asWritten boundary = .ok resolved) :
    includeFileAt machine' target asWritten boundary = .ok resolved := by
  unfold includeFileAt at *
  rw [absolutePath_extends h]
  split at hfile
  · cases hfile
  · next hnul =>
      rw [if_neg hnul]
      obtain ⟨r, hr, hfile⟩ := Except.bind_eq_ok.mp hfile
      obtain ⟨⟨⟩, hcontained, hfile⟩ := Except.bind_eq_ok.mp hfile
      refine Except.bind_eq_ok.mpr ⟨r, hr, Except.bind_eq_ok.mpr ⟨(), hcontained, ?_⟩⟩
      split at hfile
      · next hisFile =>
          rw [if_pos (h.isFile r hisFile)]
          exact hfile
      · split at hfile <;> cases hfile

theorem boundaryContains_extends {boundary : Option Boundary} {resolved : Path}
    (hcontains : boundaryContains machine boundary resolved = .ok ()) :
    boundaryContains machine' boundary resolved = .ok () := by
  unfold boundaryContains at *
  cases boundary with
  | none => rfl
  | some b =>
      obtain ⟨⟨⟩, hlexical, hcontains⟩ := Except.bind_eq_ok.mp hcontains
      refine Except.bind_eq_ok.mpr ⟨(), hlexical, ?_⟩
      unfold Boundary.checkContainsCanonical at *
      split at hcontains
      · cases hcontains
      · next canonical hcanonical =>
          rw [h.canonicalize _ _ hcanonical]
          split at hcontains
          · cases hcontains
          · next canonicalRoot hcanonicalRoot =>
              rw [h.canonicalize _ _ hcanonicalRoot]
              exact hcontains

theorem cloneDir_extends {clones clones' : Clones} {repo : Remote} {gitRef : String}
    {candidates candidates' : List Text} {restricted restricted' : Option Bundle} {dir : Path}
    (hclone : cloneDir machine clones repo gitRef candidates restricted = .ok (dir, clones')) :
    cloneDir machine' clones repo gitRef candidates' restricted' = .ok (dir, clones') := by
  unfold cloneDir at *
  rw [h.ensureCached]
  split at hclone
  · exact hclone
  · split at hclone
    · cases hclone
    · exact hclone

end extended

/-! ### Local includes of owned files -/

/-- A path from the home directory is one that `~` leads. -/
theorem expandHomeDirectory_ok {path : Text} {expanded : Option Path}
    (h : expandHomeDirectory machine path = .ok expanded) :
    (∃ first rest home, Paths.ofText path = .normal first :: rest ∧ first.text = ['~'] ∧
        machine.homeDirectory = .ok home ∧ expanded = some (Paths.join home rest)) ∨
      ((∀ first rest, Paths.ofText path = .normal first :: rest → first.text ≠ ['~']) ∧
        expanded = none) := by
  unfold expandHomeDirectory at h
  split at h
  · next first rest heq =>
      split at h
      · next htilde =>
          cases hhome : machine.homeDirectory with
          | error e =>
              rw [hhome] at h
              cases h
          | ok home =>
              rw [hhome] at h
              cases h
              exact Or.inl ⟨first, rest, home, heq, htilde, rfl, rfl⟩
      · next htilde =>
          cases h
          refine Or.inr ⟨?_, rfl⟩
          intro first' rest' heq'
          rw [heq] at heq'
          cases heq'
          exact htilde
  · next hnot =>
      cases h
      exact Or.inr ⟨fun first rest heq => absurd heq (hnot first rest), rfl⟩

theorem expandHomeDirectory_none {path : Text}
    (h : ∀ first rest, Paths.ofText path = .normal first :: rest → first.text ≠ ['~']) :
    expandHomeDirectory machine path = .ok none := by
  unfold expandHomeDirectory
  split
  · next first rest heq => rw [if_neg (h first rest heq)]
  · rfl

/-- With another name at its end, a local include points beside where it pointed. -/
theorem localIncludeTarget_renamed {base target : Path} {path : Text} {n : Paths.Name}
    (hname : Paths.fileName (Paths.ofText path) = some n)
    (htilde : ∀ m, Paths.ofText path = [.normal m] → m.text ≠ ['~']) {m : Paths.Name}
    (hm : m.text ≠ ['~']) (h : localIncludeTarget machine base path = .ok target) :
    ∃ dir, target = dir ++ [.normal n] ∧
      localIncludeTarget machine base (Paths.withFileNameText path m.text) =
        .ok (dir ++ [.normal m]) := by
  obtain ⟨front, hfront⟩ := Paths.fileName_eq_some.mp hname
  have hrenamed : Paths.ofText (Paths.withFileNameText path m.text) = front ++ [.normal m] := by
    rw [Paths.ofText_withFileNameText hname, hfront, List.dropLast_concat]
  unfold localIncludeTarget at *
  obtain ⟨expanded, hexpanded, htarget⟩ := Except.bind_eq_ok.mp h
  cases htarget
  rcases expandHomeDirectory_ok hexpanded with
      ⟨first, rest, home, hpath, hfirst, hhome, rfl⟩ | ⟨hplain, rfl⟩
  · -- The `~` is not the name that changes.
    cases front with
    | nil =>
        rw [hfront] at htilde hpath
        cases hpath
        exact absurd hfirst (htilde _ rfl)
    | cons c front =>
        rw [hfront, List.cons_append] at hpath
        cases hpath
        refine ⟨Paths.join home front, Paths.join_concat home front n, ?_⟩
        refine Except.bind_eq_ok.mpr ⟨some (Paths.join home (front ++ [.normal m])), ?_, ?_⟩
        · unfold expandHomeDirectory
          rw [hrenamed, List.cons_append]
          simp only [hfirst, if_true, hhome]
        · rw [Paths.join_concat]
          rfl
  · refine ⟨Paths.join base front, ?_, ?_⟩
    · show Paths.join base (Paths.ofText path) = _
      rw [hfront]
      exact Paths.join_concat base front n
    · refine Except.bind_eq_ok.mpr ⟨none, expandHomeDirectory_none ?_, ?_⟩
      · intro first rest heq
        rw [hrenamed] at heq
        cases front with
        | nil =>
            cases heq
            exact hm
        | cons c front =>
            cases heq
            exact hplain first (front ++ [.normal n]) (by rw [hfront, List.cons_append])
      · show Except.ok (Paths.join base (Paths.ofText _)) = _
        rw [hrenamed, Paths.join_concat]

theorem absolutePath_concat (hmachine : machine.Grounded) {dir q : Path} {n : Paths.Name}
    (h : absolutePath machine (dir ++ [.normal n]) = .ok q) :
    ∃ dir', q = dir' ++ [.normal n] ∧ ∀ m :
      Paths.Name, absolutePath machine (dir ++ [.normal m]) = .ok (dir' ++ [.normal m]) := by
  unfold absolutePath at *
  cases hdir : machine.currentDir with
  | error e =>
      rw [hdir] at h
      cases h
  | ok current =>
      rw [hdir] at h
      cases h
      have habsolute : Paths.isAbsolute (Paths.join current dir) = true :=
        Paths.isAbsolute_join (hmachine.currentDir current hdir).1
      refine ⟨Paths.clean (Paths.join current dir), ?_, ?_⟩
      · rw [Paths.join_concat, Paths.clean_concat habsolute]
      · intro m
        show Except.ok _ = _
        rw [Paths.join_concat, Paths.clean_concat habsolute]

/-- The converted entry of a local include resolves beside the file that its source reached. -/
theorem resolveFileInclude_renamed (hextends : machine.Extends machine')
    (hmachine : machine.Grounded) {base resolved : Path} {path : Text} {n : Paths.Name}
    (hname : Paths.fileName (Paths.ofText path) = some n)
    (htilde : ∀ m, Paths.ofText path = [.normal m] → m.text ≠ ['~'])
    (h : resolveFileInclude machine base path none = .ok resolved) {dir' : Path} {m n' : Paths.Name}
    (hm : m.text ≠ ['~']) (hresolved : resolved = dir' ++ [.normal n'])
    (hnul : '\x00' ∈ m.text → '\x00' ∈ n'.text)
    (hfile : machine'.isFile (dir' ++ [.normal m]) = true) :
    resolveFileInclude machine' base (Paths.withFileNameText path m.text) none =
      .ok (dir' ++ [.normal m]) := by
  unfold resolveFileInclude at *
  obtain ⟨target, htarget, h⟩ := Except.bind_eq_ok.mp h
  obtain ⟨dir, rfl, hrenamed⟩ := localIncludeTarget_renamed hname htilde hm htarget
  unfold includeFileAt at h
  split at h
  · cases h
  · next hpath =>
      obtain ⟨q, hq, h⟩ := Except.bind_eq_ok.mp h
      obtain ⟨dir'', rfl, hall⟩ := absolutePath_concat hmachine hq
      have hsame : dir'' ++ [.normal n] = resolved := by
        obtain ⟨⟨⟩, -, h⟩ := Except.bind_eq_ok.mp h
        split at h
        · exact Except.ok.inj h
        · split at h <;> cases h
      obtain ⟨rfl, hn⟩ := List.append_inj' (hsame.trans hresolved) rfl
      obtain rfl : n = n' := by simpa using hn
      refine Except.bind_eq_ok.mpr ⟨dir ++ [.normal m], ?_, ?_⟩
      · rw [localIncludeTarget_extends hextends]
        exact hrenamed
      · unfold includeFileAt
        rw [if_neg, absolutePath_extends hextends, hall m]
        · show (if machine'.isFile (dir'' ++ [.normal m]) = true then _ else _) = _
          rw [if_pos hfile]
        · -- What is new in the text has no zero byte.
          intro hmem
          rcases Paths.mem_withFileNameText hmem with hmem | hmem | hmem
          · exact hpath hmem
          · exact hpath (Paths.mem_of_mem_fileName hname (hnul hmem))
          · exact absurd hmem (by decide)

/-! ### What a conversion leaves as it is -/

/-- What carries a project over beyond its conversion: a bundle's files have names that the native
loader reads as YAML, no owned file is inside a clone, and a local include of an owned file is
written with the name of a file at its end. -/
structure LoadedConfig.CarriesOver (loaded : LoadedConfig) : Prop where
  bundlesYaml : ∀ f ∈ loaded.files, f.boundary.isSome = true → configFileFormat f.path = some .yaml
  clonesApart : ∀ e ∈ loaded.gitClones, Paths.Rooted e.2 ∧
    ∀ f ∈ loaded.ownedFiles, Paths.startsWith f.path e.2 = false
  includesNamed : ∀ f ∈ loaded.ownedFiles, ∀ path, .file path ∈ f.file.includes →
    (Paths.fileName (Paths.ofText path)).isSome = true ∧
      ∀ m, Paths.ofText path = [.normal m] → m.text ≠ ['~']

variable {unicode : Char → Bool} {root : LoadedFile} {loaded : LoadedConfig}
    {native : LoadedFile → LoadedFile}

/-- A boundary is a clone that the load knows. -/
theorem Found.repoDir (h : Found machine root loaded) :
    ∀ f ∈ loaded.files, ∀ b, f.boundary = some b →
    ∃ e ∈ loaded.gitClones, e.2 = b.repoDir := by
  refine h.tree.induction ?_ ?_
  · intro b hb
    rw [h.tree.owned] at hb
    cases hb
  · intro d hd f _ entry hentry _ hboundary hdir b hb
    rw [hb] at hboundary
    cases entry with
    | file path => exact hdir b hboundary.symm
    | git repo gitRef path hostPaths nestedGit reviewed =>
        obtain ⟨clone, hclone, rfl⟩ := carriedBoundary_git.mp hboundary.symm
        obtain ⟨clone', hfind, hcached⟩ := h.clone hd hentry rfl
        rw [hcached] at hclone
        cases hclone
        obtain ⟨e, he, rfl⟩ := Option.map_eq_some_iff.mp hfind
        exact ⟨e, List.mem_of_find?_eq_some he, rfl⟩

/-- What is inside a clone is no owned file. -/
theorem LoadedConfig.CarriesOver.not_owned (h : loaded.CarriesOver) {g : LoadedFile}
    (hg : g ∈ loaded.files) (hrooted : Paths.Rooted g.path) {b : Boundary}
    (hclone : ∃ e ∈ loaded.gitClones, e.2 = b.repoDir)
    (hcontains : boundaryContains machine (some b) g.path = .ok ()) : g.boundary.isSome = true := by
  rw [Option.isSome_iff_ne_none]
  intro hboundary
  obtain ⟨e, he, hdir⟩ := hclone
  obtain ⟨⟨⟩, hlexical, -⟩ := Except.bind_eq_ok.mp hcontains
  unfold Boundary.checkContains at hlexical
  split at hlexical
  · next hstarts =>
      rw [hrooted.clean, ← hdir,
        (h.clonesApart e he).2 g (mem_owned.mpr ⟨hg, hboundary⟩)] at hstarts
      cases hstarts
  · cases hlexical

/-- The path that a conversion looks for in a clone, as a name in it. -/
theorem isName_nativeBundleFile : Paths.IsName nativeBundleFile := by decide

theorem not_isFile_nativeBundle (h : Rewritten machine machine' unicode loaded root native)
    (hcarries : loaded.CarriesOver) {e : (Remote × String) × Path} (he : e ∈ loaded.gitClones)
    (hnot : machine.isFile (e.2 ++ [.normal ⟨nativeBundleFile, isName_nativeBundleFile⟩]) = false) :
    machine'.isFile (e.2 ++ [.normal ⟨nativeBundleFile, isName_nativeBundleFile⟩]) = false := by
  rw [Bool.eq_false_iff]
  intro hfile
  rcases h.isFile _ hfile with hold | ⟨f, hf, hpath⟩
  · rw [hold] at hnot
    cases hnot
  · -- A file that is written there has its source there too.
    obtain ⟨dir, n, m, hsource, htarget, -⟩ := (h.owned f hf).beside
    obtain ⟨hdir, -⟩ := List.append_inj' (htarget.symm.trans hpath) rfl
    have hstarts : Paths.startsWith f.path e.2 = true := by
      rw [Paths.startsWith_iff, hsource, hdir]
      exact List.prefix_append _ _
    rw [(hcarries.clonesApart e he).2 f hf] at hstarts
    cases hstarts

/-- The native load finds the same file of a bundle that the Batect-format load found. -/
theorem resolveIncludeTarget_pinned (h : Rewritten machine machine' unicode loaded root native)
    (hcarries : loaded.CarriesOver) {e : (Remote × String) × Path} (he : e ∈ loaded.gitClones)
    {b : Boundary} (hb : b.repoDir = e.2) {path : Option Text} {resolved : Path}
    (hresolve : resolveIncludeTarget machine e.2 (gitCandidates .compat path)
      (some b) = .ok resolved) :
    resolveIncludeTarget machine' e.2 (gitCandidates .native (pinnedPath machine e.2 path).1)
      (some b) = .ok resolved := by
  have hextends := h.machines
  have hat : includeFileAt machine (Paths.join e.2 (Paths.ofText (path.getD batectBundleFile)))
      (path.getD batectBundleFile) (some b) = .ok resolved := by
    cases path with
    | some path => exact hresolve
    | none => exact hresolve
  have hat' := includeFileAt_extends hextends hat
  cases path with
  | some path => exact hat'
  | none =>
      unfold pinnedPath
      simp only
      split
      · exact hat'
      · next hnot =>
          obtain ⟨hrooted, -⟩ := hcarries.clonesApart e he
          have hname : Paths.ofText nativeBundleFile =
              [.normal ⟨nativeBundleFile, isName_nativeBundleFile⟩] :=
            Paths.ofText_name ⟨nativeBundleFile, isName_nativeBundleFile⟩
          have hjoin : Paths.join e.2 (Paths.ofText nativeBundleFile) =
              e.2 ++ [.normal ⟨nativeBundleFile, isName_nativeBundleFile⟩] := by
            rw [hname]
            exact hrooted.join _
          have hrooted' := hrooted.append ⟨nativeBundleFile, isName_nativeBundleFile⟩
          rw [hjoin] at hnot
          have hmissing := not_isFile_nativeBundle h hcarries he (Bool.eq_false_iff.mpr hnot)
          -- The native name is looked for first, and is not there.
          unfold includeFileAt at hat'
          split at hat'
          · cases hat'
          · obtain ⟨r, hr, hat'⟩ := Except.bind_eq_ok.mp hat'
            obtain ⟨⟨⟩, hcontained, hat'⟩ := Except.bind_eq_ok.mp hat'
            have hcurrent : ∃ current, machine'.currentDir = .ok current := by
              unfold absolutePath at hr
              split at hr
              · cases hr
              · next current hcurrent => exact ⟨current, hcurrent⟩
            obtain ⟨current, hcurrent⟩ := hcurrent
            have hfirst : absolutePath machine' (Paths.join e.2 (Paths.ofText nativeBundleFile)) =
                .ok (e.2 ++ [.normal ⟨nativeBundleFile, isName_nativeBundleFile⟩]) := by
              unfold absolutePath
              rw [hcurrent, hjoin]
              show Except.ok _ = _
              rw [Paths.join_absolute hrooted'.isAbsolute, hrooted'.clean]
            have hinside : checkContained (some b)
                (e.2 ++ [.normal ⟨nativeBundleFile, isName_nativeBundleFile⟩]) =
                .ok () := by
              show Boundary.checkContains b _ = .ok ()
              unfold Boundary.checkContains
              rw [hrooted'.clean, hb, if_pos (Paths.startsWith_iff.mpr (List.prefix_append _ _))]
            show firstCandidate machine' e.2 (some b) _ [nativeBundleFile, batectBundleFile] = _
            unfold firstCandidate
            refine Except.bind_eq_ok.mpr ⟨_, hfirst, Except.bind_eq_ok.mpr ⟨(), hinside, ?_⟩⟩
            rw [if_neg (by rw [hmissing]; exact Bool.false_ne_true)]
            unfold firstCandidate
            refine Except.bind_eq_ok.mpr ⟨r, hr, Except.bind_eq_ok.mpr ⟨(), hcontained, ?_⟩⟩
            split at hat'
            · next hfile =>
                rw [if_pos hfile]
                exact hat'
            · split at hat' <;> cases hat'

end Ratect
