import Ratect.ConvertedIncludes
import Ratect.Simulation

/-! # Loading a converted project

The native load of a converted project goes side by side with the Batect-format load of its source,
entry by entry (`Mirrors`): it reads the converted file wherever the other one reads an owned file,
and the same bundle's file wherever that one reads a bundle's (`converted_project_loads`). -/

namespace Ratect

open Paths (Path)

variable {machine machine' : Machine} {unicode : Char → Bool} {root : LoadedFile}
    {loaded : LoadedConfig} {native : LoadedFile → LoadedFile}

/-! ### One entry on both sides -/

/-- An entry of the source that waits to be visited, and the one that waits in its place. -/
inductive Meets (machine : Machine) (loaded : LoadedConfig) (native : LoadedFile → LoadedFile) :
    Pending → Pending → Prop
  | owned {d : LoadedFile} {entry entry' : IncludeEntry} {checks : List ConversionCheck}
      (hd : d ∈ loaded.ownedFiles)
      (hentry : entry ∈ d.file.includes)
      (hconvert : convertInclude machine loaded loaded.targets d.path entry =
        .ok (entry', checks)) :
      Meets machine loaded native ⟨d.path, none, entry⟩ ⟨(native d).path, none, entry'⟩
  | bundle {d : LoadedFile} {b : Boundary} {path : Text} (hd : d ∈ loaded.files)
      (hboundary : d.boundary = some b)
      (hentry : .file path ∈ d.file.includes) :
      Meets machine loaded native ⟨d.path, some b, .file path⟩ ⟨d.path, some b, .file path⟩

/-- What the simulation rests on. -/
structure Carried (machine machine' : Machine) (unicode : Char → Bool) (loaded : LoadedConfig)
    (root : LoadedFile) (native : LoadedFile → LoadedFile) : Prop where
  found : Found machine root loaded
  grounded : machine.Grounded
  rooted : ∀ f ∈ loaded.files, Paths.Rooted f.path
  rewritten : Rewritten machine machine' unicode loaded root native
  carriesOver : loaded.CarriesOver
  plain : ∀ f ∈ loaded.files,
    f.boundary.isSome = true → ∀ entry ∈ f.file.includes, entry.remote = none

theorem Carried.pending (h : Carried machine machine' unicode loaded root native) {g : LoadedFile}
    (hg : g ∈ loaded.files) :
    List.Forall₂ (Meets machine loaded native) g.pending (native g).pending := by
  unfold LoadedFile.pending
  rw [List.forall₂_map_left_iff, List.forall₂_map_right_iff, h.rewritten.boundary hg]
  cases hboundary : g.boundary with
  | none =>
      have howned : g ∈ loaded.ownedFiles := mem_owned.mpr ⟨hg, hboundary⟩
      have hall := (List.forall₂_and_left _ _).mpr
        ⟨fun entry (hentry : entry ∈ g.file.includes) => hentry,
          (h.rewritten.owned g howned).includes⟩
      refine hall.imp ?_
      rintro entry entry' ⟨hentry, checks, hconvert⟩
      exact .owned howned hentry hconvert
  | some b =>
      have hbundle : g.boundary.isSome = true := by
        rw [hboundary]
        rfl
      rw [h.rewritten.bundle g hg hbundle, List.forall₂_same]
      intro entry hentry
      cases entry with
      | file path => exact .bundle hg hboundary hentry
      | git => cases h.plain g hg hbundle _ hentry

theorem containingDir_beside {machine machine' : Machine}
    (h : Rewritten machine machine' unicode loaded root native) {d : LoadedFile}
    (hd : d ∈ loaded.ownedFiles) : containingDir (native d).path = containingDir d.path := by
  obtain ⟨dir, n, m, hsource, htarget, -⟩ := (h.owned d hd).beside
  unfold containingDir
  rw [hsource, htarget, Paths.parent_concat, Paths.parent_concat]

/-- A local include of an owned file leads to the converted file of the one that its source led
to. -/
theorem resolveFileInclude_native (h : Carried machine machine' unicode loaded root native)
    {d : LoadedFile} (hd : d ∈ loaded.ownedFiles) {path : Text}
    (hentry : .file path ∈ d.file.includes) {entry' : IncludeEntry} {checks : List ConversionCheck}
    (hconvert : convertInclude machine loaded loaded.targets d.path (.file path) =
      .ok (entry', checks))
    {resolved : Path}
    (hresolve : resolveFileInclude machine (containingDir d.path) path none = .ok resolved)
    (htarget : entryTarget machine .compat d.path (.file path) = some resolved) :
    ∃ g ∈ loaded.ownedFiles, g.path = resolved ∧ ∃ path', entry' = .file path' ∧
      resolveFileInclude machine' (containingDir (native d).path) path' none =
        .ok (native g).path := by
  have hd' : d ∈ loaded.files := (mem_owned.mp hd).1
  obtain ⟨g, hg, hlocal, ⟨target, hget, hok⟩ | ⟨-, hfail⟩⟩ :=
    convertInclude_file h.found hd' (targets_sources loaded) hentry
  · rw [hok] at hconvert
    cases hconvert
    obtain ⟨g', hg', hlocal', htarget'⟩ := h.found.resolveLocal hd' hentry
    obtain rfl : g' = g :=
      h.found.tree.path_unique hg' hg (Except.ok.inj (hlocal'.symm.trans hlocal))
    have hpath : g'.path = resolved := Option.some.inj (htarget'.symm.trans htarget)
    -- The file that the entry reached is owned, since it has a target.
    have howned : g' ∈ loaded.ownedFiles := by
      have hkey :=
        Targets.get?_isSome.mp (by rw [hget]; rfl : (loaded.targets.get? g'.path).isSome = true)
      rw [targets_sources] at hkey
      obtain ⟨f, hf, hfpath⟩ := List.mem_map.mp hkey
      rwa [h.found.tree.path_unique (mem_owned.mp hf).1 hg hfpath] at hf
    have hrewrite := h.rewritten.owned g' howned
    obtain rfl : target = (native g').path := Option.some.inj (hget.symm.trans hrewrite.target)
    obtain ⟨dir, n, m, hsource, hbeside, hm, hnul⟩ := hrewrite.beside
    obtain ⟨hnamed, htilde⟩ := h.carriesOver.includesNamed d hd path hentry
    obtain ⟨n', hn'⟩ := Option.isSome_iff_exists.mp hnamed
    refine ⟨g', howned, hpath, _, rfl, ?_⟩
    rw [containingDir_beside h.rewritten hd, hbeside, Paths.fileName_concat]
    exact resolveFileInclude_renamed h.rewritten.machines h.grounded hn' htilde hresolve hm
      (hpath ▸ hsource) hnul
      (hbeside ▸ hrewrite.isFile)
  · rw [hfail] at hconvert
    cases hconvert

/-- A Git include of an owned file resolves as its source did. -/
theorem resolveGit_native (h : Carried machine machine' unicode loaded root native) {d : LoadedFile}
    (hd : d ∈ loaded.ownedFiles) {repo : Remote} {gitRef : String}
    {path : Option Text} {hostPaths : Bool}
    {nestedGit : Option Bool} {reviewed : Option String}
    (hentry : .git repo gitRef path hostPaths nestedGit reviewed ∈ d.file.includes)
    {entry' : IncludeEntry}
    {checks : List ConversionCheck}
    (hconvert : convertInclude machine loaded loaded.targets d.path
      (.git repo gitRef path hostPaths nestedGit reviewed) =
      .ok (entry', checks)) {resolved : Path} {boundary : Option Boundary} {clones clones' : Clones}
    (hclones : ClonesOf machine clones)
    (hresolve : resolveEntry machine .compat root.path clones
      ⟨d.path, none, .git repo gitRef path hostPaths nestedGit reviewed⟩ =
        .ok (resolved, boundary, clones')) :
    (∃ path', entry' = .git repo gitRef path' hostPaths none none) ∧
      (∃ b, boundary = some b ∧ ∃ e ∈ loaded.gitClones, e.2 = b.repoDir) ∧
      resolveEntry machine' .native (native root).path clones ⟨(native d).path, none, entry'⟩ =
        .ok (resolved, boundary, clones') := by
  have hd' : d ∈ loaded.files := (mem_owned.mp hd).1
  obtain ⟨clone, hclone, nested, hok, -⟩ := convertInclude_git loaded.targets h.found hd' hentry
  rw [hok] at hconvert
  cases hconvert
  unfold resolveEntry at hresolve
  obtain ⟨⟨⟩, hdialect, hresolve⟩ := Except.bind_eq_ok.mp hresolve
  obtain ⟨⟨⟩, -, hresolve⟩ := Except.bind_eq_ok.mp hresolve
  obtain ⟨⟨dir, clones''⟩, hdir, hresolve⟩ := Except.bind_eq_ok.mp hresolve
  obtain ⟨r, hr, hresolve⟩ := Except.bind_eq_ok.mp hresolve
  cases hresolve
  obtain ⟨hnested, hreviewed⟩ := inDialect_of_checkDialect hdialect rfl
  obtain rfl : nestedGit = none := hnested
  obtain rfl : dir = clone := Except.ok.inj ((cloneDir_ok hclones hdir).1.symm.trans hclone)
  obtain ⟨clone', hfind, hcached⟩ := h.found.clone hd' hentry rfl
  obtain rfl : clone' = dir := Except.ok.inj (hcached.symm.trans hclone)
  obtain ⟨e, he, hedir⟩ := Option.map_eq_some_iff.mp hfind
  have hmem := List.mem_of_find?_eq_some he
  refine ⟨⟨_, rfl⟩, ⟨_, rfl, e, hmem, hedir⟩, ?_⟩
  have htoml : declaredInBatect .native (native root).path
      ⟨(native d).path, none, .git repo gitRef (pinnedPath machine clone' path).1 hostPaths
        none none⟩ = none := by
    unfold declaredInBatect ConfigFormat.readsAsBatect
    rw [(h.rewritten.owned d hd).format]
    rfl
  unfold resolveEntry
  rw [htoml]
  refine Except.bind_eq_ok.mpr ⟨(), rfl, Except.bind_eq_ok.mpr ⟨(), rfl, ?_⟩⟩
  refine Except.bind_eq_ok.mpr ⟨(clone', clones'), cloneDir_extends h.rewritten.machines hdir, ?_⟩
  refine Except.bind_eq_ok.mpr ⟨resolved, ?_, rfl⟩
  rw [← hedir] at hr ⊢
  exact resolveIncludeTarget_pinned h.rewritten h.carriesOver hmem rfl hr

/-- Both sides resolve their entry: the native one to what stands in place of the file that the
other reached. -/
theorem resolveEntry_native (h : Carried machine machine' unicode loaded root native)
    {p p' : Pending} (hmeets : Meets machine loaded native p p') {resolved : Path}
    {boundary : Option Boundary} {clones clones' : Clones} (hclones : ClonesOf machine clones)
    (hresolve : resolveEntry machine .compat root.path clones p = .ok (resolved, boundary, clones'))
    (hcontains : boundaryContains machine boundary resolved = .ok ()) :
    ∃ g ∈ loaded.files, g.path = resolved ∧ g.boundary.isSome = boundary.isSome ∧
      resolveEntry machine' .native (native root).path clones p' =
        .ok ((native g).path, boundary, clones') ∧
      boundaryContains machine' boundary (native g).path = .ok () := by
  obtain ⟨htarget, -⟩ := resolveEntry_ok hclones hresolve
  -- A file that an entry reached inside a clone is a bundle's, and stands for itself.
  have hbundle : ∀ d ∈ loaded.files, ∀ entry ∈ d.file.includes,
      entryTarget machine .compat d.path entry = some resolved →
      ∀ b, boundary = some b → (∃ e ∈ loaded.gitClones, e.2 = b.repoDir) →
      resolveEntry machine' .native (native root).path clones p' =
        .ok (resolved, boundary, clones') →
      ∃ g ∈ loaded.files, g.path = resolved ∧ g.boundary.isSome = boundary.isSome ∧
        resolveEntry machine' .native (native root).path clones p' =
          .ok ((native g).path, boundary, clones') ∧
        boundaryContains machine' boundary (native g).path = .ok () := by
    rintro d hd entry hentry hreached b rfl hclone hnative
    obtain ⟨g, hg, hfollowed, -⟩ := h.found.tree.delivered d hd entry hentry
    obtain rfl : g.path = resolved := Option.some.inj (hfollowed.target.symm.trans hreached)
    have hside := h.carriesOver.not_owned hg (h.rooted g hg) hclone hcontains
    refine ⟨g, hg, rfl, hside, ?_, ?_⟩
    · rw [h.rewritten.bundle g hg hside]
      exact hnative
    · rw [h.rewritten.bundle g hg hside]
      exact boundaryContains_extends h.rewritten.machines hcontains
  cases hmeets with
  | @owned d entry entry' checks hd hentry hconvert =>
      cases entry with
      | file path =>
          obtain ⟨r, hr, hresolve⟩ := Except.bind_eq_ok.mp hresolve
          cases hresolve
          obtain ⟨g, hg, hpath, path', rfl, hnative⟩ :=
            resolveFileInclude_native h hd hentry hconvert hr htarget
          refine ⟨g, (mem_owned.mp hg).1, hpath, by rw [(mem_owned.mp hg).2], ?_, rfl⟩
          exact Except.bind_eq_ok.mpr ⟨(native g).path, hnative, rfl⟩
      | git repo gitRef path hostPaths nestedGit reviewed =>
          obtain ⟨-, ⟨b, hb, hclone⟩, hnative⟩ :=
            resolveGit_native h hd hentry hconvert hclones hresolve
          exact hbundle d (mem_owned.mp hd).1 _ hentry htarget b hb hclone hnative
  | @bundle d b path hd hboundary hentry =>
      obtain ⟨r, hr, hresolve⟩ := Except.bind_eq_ok.mp hresolve
      cases hresolve
      refine hbundle d hd _ hentry htarget b rfl (h.found.repoDir d hd b hboundary) ?_
      refine Except.bind_eq_ok.mpr ⟨resolved, ?_, rfl⟩
      unfold resolveFileInclude at *
      rw [localIncludeTarget_extends h.rewritten.machines]
      obtain ⟨target, htarget', hr⟩ := Except.bind_eq_ok.mp hr
      exact Except.bind_eq_ok.mpr ⟨target, htarget', includeFileAt_extends h.rewritten.machines hr⟩

/-! ### One visit on both sides -/

theorem Carried.convert_shape (h : Carried machine machine' unicode loaded root native)
    {p p' : Pending} (hmeets : Meets machine loaded native p p') :
    p'.boundary = p.boundary ∧ ((∃ path path', p.entry = .file path ∧ p'.entry = .file path') ∨
      ∃ repo gitRef path hostPaths nestedGit reviewed path',
        p.entry = .git repo gitRef path hostPaths nestedGit reviewed ∧
          p'.entry = .git repo gitRef path' hostPaths none none) := by
  cases hmeets with
  | @owned d entry entry' checks hd hentry hconvert =>
      have hd' : d ∈ loaded.files := (mem_owned.mp hd).1
      refine ⟨rfl, ?_⟩
      cases entry with
      | file path =>
          obtain ⟨g, -, -, ⟨target, -, hok⟩ | ⟨-, hfail⟩⟩ :=
            convertInclude_file h.found hd' (targets_sources loaded) hentry
          · rw [hok] at hconvert
            cases hconvert
            exact Or.inl ⟨_, _, rfl, rfl⟩
          · rw [hfail] at hconvert
            cases hconvert
      | git repo gitRef path hostPaths nestedGit reviewed =>
          obtain ⟨clone, -, nested, hok, -⟩ := convertInclude_git loaded.targets h.found hd' hentry
          rw [hok] at hconvert
          cases hconvert
          exact Or.inr ⟨repo, gitRef, path, hostPaths, nestedGit, reviewed, _, rfl, rfl⟩
  | bundle => exact ⟨rfl, Or.inl ⟨_, _, rfl, rfl⟩⟩

/-- How the written-for checks judge what a bundle of YAML files holds: its entry file cannot say
what it was written for, and is judged only once it reaches a TOML file. -/
structure Machine.JudgesYaml (machine : Machine) : Prop where
  readWrittenFor : ∀ p, configFileFormat p = some .yaml →
    machine.readWrittenFor p = .ok none ∨ machine.readWrittenFor p = .ok (some .yamlRoot)
  checkBundle : ∀ running entry, entry.writtenFor = .yamlRoot → entry.firstToml = none →
    entry.reviewed = none →
    machine.checkBundle running entry = .ok ()

theorem checkEntryWrittenFor_native (h : Carried machine machine' unicode loaded root native)
    (hjudges : machine'.JudgesYaml) (running : Option String) {p p' : Pending}
    (hmeets : Meets machine loaded native p p') {resolved : Path} {boundary : Option Boundary}
    (hyaml : boundary.isSome = true → configFileFormat resolved = some .yaml) :
    ∃ yaml, checkEntryWrittenFor machine' .native running (native root).path p' resolved
      boundary = .ok yaml ∧
      ∀ e ∈ yaml, e.reviewed = none := by
  unfold checkEntryWrittenFor
  split
  · next running' repo gitRef path hostPaths nestedGit reviewed b hentry =>
      obtain ⟨-, ⟨_, _, -, hfile⟩ | ⟨_, _, _, _, _, _, _, -, hgit⟩⟩ := h.convert_shape hmeets
      · rw [hentry] at hfile
        cases hfile
      · rw [hentry] at hgit
        cases hgit
        unfold checkBundleEntry
        rcases hjudges.readWrittenFor _ (hyaml rfl) with hnone | hroot
        · rw [hnone]
          exact ⟨[], rfl, fun e he => absurd he List.not_mem_nil⟩
        · rw [hroot]
          refine ⟨_, rfl, ?_⟩
          intro e he
          rw [List.mem_singleton.mp he]
  · exact ⟨[], rfl, fun e he => absurd he List.not_mem_nil⟩

namespace EffectiveGrants

theorem get?_record (grants : EffectiveGrants) (file : Path) (trust : Option Trust) (p : Path) :
    (grants.record file trust).get? p = if p = file then
      some ((grants.get? file).getD trust) else grants.get? p := by
  cases hget : grants.get? file with
  | some v =>
      have hsame : grants.record file trust = grants := by
        unfold record
        rw [hget]
        rfl
      rw [hsame]
      split
      · next heq => rw [heq, hget, Option.getD_some]
      · rfl
  | none =>
      have hrecord : grants.record file trust = grants ++ [(file, trust)] := by
        unfold record
        rw [hget]
        rfl
      rw [hrecord]
      unfold get? at *
      rw [List.find?_append]
      by_cases heq : p = file
      · rw [if_pos heq, heq, Option.map_eq_none_iff.mp hget]
        simp
      · have hother : [(file, trust)].find? (fun e => e.1 = p) = none := by simp [Ne.symm heq]
        rw [if_neg heq, hother, Option.or_none]

theorem check_congr {grants grants' : EffectiveGrants} {file : Path}
    (h : grants'.get? file = grants.get? file) (wanted : Trust) (repo : Remote) :
    grants'.check file wanted repo = grants.check file wanted repo := by
  unfold check
  rw [h]

end EffectiveGrants

/-- A state of the native load, beside one of the load of the source. -/
structure Mirrors (machine : Machine) (loaded : LoadedConfig) (native : LoadedFile → LoadedFile)
    (t t' : Traversal) :
    Prop where
  files : t'.loaded = t.loaded.map native
  seen : t'.seen = t'.loaded.map LoadedFile.path
  clones : t'.gitRepoPaths = t.gitRepoPaths
  grants : ∀ f ∈ loaded.files, f.boundary.isSome = true →
    t'.effectiveGrants.get? f.path = t.effectiveGrants.get? f.path
  queue : List.Forall₂ (Meets machine loaded native) t.queue t'.queue
  localIncludes : ∀ e ∈ t'.bundleLocalIncludes, configFileFormat e.2 = some .yaml
  yaml : ∀ e ∈ t'.yamlBundleEntries, e.reviewed = none

theorem Carried.injective (h : Carried machine machine' unicode loaded root native)
    {f g : LoadedFile} (hf : f ∈ loaded.files) (hg : g ∈ loaded.files)
    (hpath : (native f).path = (native g).path) : f = g :=
  h.rewritten.injective h.found h.carriesOver.bundlesYaml hf hg hpath

/-- A grant that is not lost on the file that the source's entry reached is not lost on its
counterpart. -/
theorem checkGrants_native (h : Carried machine machine' unicode loaded root native)
    {t t' : Traversal} (hmirrors : Mirrors machine loaded native t t') {p p' : Pending}
    (hmeets : Meets machine loaded native p p') {g : LoadedFile} (hg : g ∈ loaded.files)
    {boundary : Option Boundary} (hside : g.boundary.isSome = boundary.isSome)
    (hgrants : checkGrants t.effectiveGrants g.path p.entry boundary = .ok ()) :
    checkGrants t'.effectiveGrants (native g).path p'.entry boundary = .ok () := by
  have hrepo : grantRepo p'.entry boundary = grantRepo p.entry boundary := by
    obtain ⟨-, ⟨_, _, hentry, hentry'⟩ | ⟨_, _, _, _, _, _, _, hentry, hentry'⟩⟩ :=
      h.convert_shape hmeets <;>
      rw [hentry, hentry'] <;> rfl
  unfold checkGrants at *
  rw [hrepo]
  cases boundary with
  | none =>
      rw [Option.map_none]
      split <;> first | rfl | contradiction
  | some b =>
      have hbundle : g.boundary.isSome = true := hside
      rw [h.rewritten.bundle g hg hbundle]
      split
      · next repo wanted hr hw =>
          rw [hr, hw] at hgrants
          rw [EffectiveGrants.check_congr (hmirrors.grants g hg hbundle)]
          exact hgrants
      · rfl

/-- What is recorded for a bundle's files stays the same on both sides. -/
theorem record_native (h : Carried machine machine' unicode loaded root native)
    {grants grants' : EffectiveGrants}
    (hgrants : ∀ f ∈ loaded.files,
      f.boundary.isSome = true → grants'.get? f.path = grants.get? f.path)
    {g : LoadedFile} (hg : g ∈ loaded.files) (trust : Option Trust) :
    ∀ f ∈ loaded.files, f.boundary.isSome = true →
      (grants'.record (native g).path trust).get? f.path =
        (grants.record g.path trust).get? f.path := by
  intro f hf hbundle
  have hself : (native f).path = f.path := by rw [h.rewritten.bundle f hf hbundle]
  rw [EffectiveGrants.get?_record, EffectiveGrants.get?_record, hgrants f hf hbundle]
  by_cases hfg : f = g
  · subst hfg
    rw [hself, if_pos rfl, if_pos rfl, hgrants f hf hbundle]
  · rw [if_neg fun heq => hfg (h.injective hf hg (hself.trans heq)),
      if_neg fun heq => hfg (h.found.tree.path_unique hf hg heq)]

/-- A file that the load of the source reads has its counterpart read. -/
theorem readIncluded_native (h : Carried machine machine' unicode loaded root native)
    {g : LoadedFile} (hg : g ∈ loaded.files) (hroot : g ≠ root) {entry entry' : IncludeEntry}
    (hread : readIncluded machine .compat g.path g.boundary entry = .ok g) :
    readIncluded machine' .native (native g).path g.boundary entry' = .ok (native g) := by
  unfold readIncluded at *
  obtain ⟨file, hparse, hread⟩ := Except.bind_eq_ok.mp hread
  obtain ⟨⟨⟩, hversion, hread⟩ := Except.bind_eq_ok.mp hread
  obtain ⟨⟨⟩, hrootOnly, hread⟩ := Except.bind_eq_ok.mp hread
  have hfile : file = g.file := congrArg LoadedFile.file (Except.ok.inj hread)
  rw [hfile] at hparse hversion hrootOnly
  cases hboundary : g.boundary with
  | none =>
      have howned : g ∈ loaded.ownedFiles := mem_owned.mpr ⟨hg, hboundary⟩
      have hrewrite := h.rewritten.owned g howned
      obtain ⟨hname, hnone⟩ := h.rewritten.rootOnly g howned hroot
      refine Except.bind_eq_ok.mpr ⟨(native g).file, ?_, ?_⟩
      · unfold ConfigFormat.parse
        simp only [hrewrite.format]
        rw [hrewrite.readToml]
        rfl
      · refine Except.bind_eq_ok.mpr ⟨(), ?_, Except.bind_eq_ok.mpr ⟨(), ?_, ?_⟩⟩
        · unfold rejectMisplacedRatectVersion
          rw [hnone]
          rfl
        · unfold rejectRootOnlyFields at *
          rw [hname, hrewrite.forbidTelemetry, if_neg (by simp)]
          split at hrootOnly
          · cases hrootOnly
          · split at hrootOnly
            · cases hrootOnly
            · next htelemetry => rw [if_neg htelemetry]
        · show Except.ok _ = Except.ok _
          rw [← hrewrite.boundary]
  | some b =>
      have hbundle : g.boundary.isSome = true := by
        rw [hboundary]
        rfl
      rw [h.rewritten.bundle g hg hbundle]
      refine Except.bind_eq_ok.mpr ⟨g.file, ?_, ?_⟩
      · unfold ConfigFormat.parse
        simp only [h.carriesOver.bundlesYaml g hg hbundle]
        rw [h.rewritten.readYaml]
        · exact hparse
        · intro f hf heq
          have hself : (native g).path = g.path := by rw [h.rewritten.bundle g hg hbundle]
          have hfg := h.injective (mem_owned.mp hf).1 hg (heq.trans hself.symm)
          rw [← hfg, (mem_owned.mp hf).2] at hbundle
          cases hbundle
      · refine Except.bind_eq_ok.mpr ⟨(), ?_, Except.bind_eq_ok.mpr ⟨(), hboundary ▸ hrootOnly, ?_⟩⟩
        · unfold rejectMisplacedRatectVersion at *
          split at hversion
          · next hnone => rw [if_pos hnone]
          · cases hversion
        · show Except.ok _ = Except.ok _
          rw [← hboundary]

theorem noteLocalInclude_native {t' : Traversal}
    (hnoted : ∀ e ∈ t'.bundleLocalIncludes, configFileFormat e.2 = some .yaml) {p' : Pending}
    {resolved : Path} (hyaml : p'.boundary.isSome = true → configFileFormat resolved = some .yaml) :
    ∀ e ∈ noteLocalInclude t' p' resolved, configFileFormat e.2 = some .yaml := by
  unfold noteLocalInclude
  split
  · next b _ hboundary =>
      intro e he
      rcases List.mem_append.mp he with he | he
      · exact hnoted e he
      · rw [List.mem_singleton.mp he]
        exact hyaml (by rw [hboundary]; rfl)
  · exact hnoted

theorem Mirrors.mem_seen (h : Carried machine machine' unicode loaded root native)
    {t t' : Traversal} (hmirrors : Mirrors machine loaded native t t')
    (hseen : t.seen = t.loaded.map LoadedFile.path) (hsub : ∀ f ∈ t.loaded, f ∈ loaded.files)
    {g : LoadedFile} (hg : g ∈ loaded.files) : (native g).path ∈ t'.seen ↔ g.path ∈ t.seen := by
  rw [hmirrors.seen, hmirrors.files, hseen, List.map_map]
  constructor
  · intro hmem
    obtain ⟨f, hf, hpath⟩ := List.mem_map.mp hmem
    rw [← h.injective (hsub f hf) hg hpath]
    exact List.mem_map_of_mem hf
  · intro hmem
    obtain ⟨f, hf, hpath⟩ := List.mem_map.mp hmem
    rw [← h.found.tree.path_unique (hsub f hf) hg hpath]
    exact List.mem_map_of_mem (f := LoadedFile.path ∘ native) hf

section visits

variable {format : ConfigFormat} {running : Option String} {path resolved : Path} {t : Traversal}
    {p : Pending} {boundary : Option Boundary} {clones : Clones} {yaml : List YamlBundleEntry}

theorem visitEntry_again
    (hresolve : resolveEntry machine format path t.gitRepoPaths p =
      .ok (resolved, boundary, clones))
    (hcontains : boundaryContains machine boundary resolved = .ok ())
    (hyaml : checkEntryWrittenFor machine format running path p resolved boundary = .ok yaml)
    (hseen : resolved ∈ t.seen)
    (hgrants : checkGrants t.effectiveGrants resolved p.entry boundary = .ok ()) :
    visitEntry machine format running path t p = .ok
      { t with
        gitRepoPaths := clones
        bundleLocalIncludes := noteLocalInclude t p resolved
        yamlBundleEntries := t.yamlBundleEntries ++ yaml } := by
  unfold visitEntry
  refine Except.bind_eq_ok.mpr ⟨(resolved, boundary, clones), hresolve, ?_⟩
  refine Except.bind_eq_ok.mpr ⟨(), hcontains, Except.bind_eq_ok.mpr ⟨yaml, hyaml, ?_⟩⟩
  rw [if_pos hseen]
  exact Except.bind_eq_ok.mpr ⟨(), hgrants, rfl⟩

theorem visitEntry_new
    (hresolve : resolveEntry machine format path t.gitRepoPaths p =
      .ok (resolved, boundary, clones))
    (hcontains : boundaryContains machine boundary resolved = .ok ())
    (hyaml : checkEntryWrittenFor machine format running path p resolved boundary = .ok yaml)
    (hseen : resolved ∉ t.seen) {f : LoadedFile}
    (hread : readIncluded machine format resolved boundary p.entry = .ok f) :
    visitEntry machine format running path t p = .ok
      { t with
        gitRepoPaths := clones
        bundleLocalIncludes := noteLocalInclude t p resolved
        yamlBundleEntries := t.yamlBundleEntries ++ yaml
        seen := t.seen ++ [resolved]
        effectiveGrants := t.effectiveGrants.record resolved (boundary.map fun b => b.bundle.trust)
        queue := t.queue ++ f.pending
        loaded := t.loaded ++ [f] } := by
  unfold visitEntry
  refine Except.bind_eq_ok.mpr ⟨(resolved, boundary, clones), hresolve, ?_⟩
  refine Except.bind_eq_ok.mpr ⟨(), hcontains, Except.bind_eq_ok.mpr ⟨yaml, hyaml, ?_⟩⟩
  rw [if_neg hseen]
  exact Except.bind_eq_ok.mpr ⟨f, hread, rfl⟩

end visits

/-- A visit of the source's load has one of the native load beside it. -/
theorem visitEntry_native (h : Carried machine machine' unicode loaded root native)
    (hjudges : machine'.JudgesYaml) {running : Option String} (running' : Option String)
    {t t₁ t' : Traversal} {p p' : Pending} (hclones : ClonesOf machine t.gitRepoPaths)
    (hseen : t.seen = t.loaded.map LoadedFile.path) (hroot : root ∈ t.loaded)
    (hsub : ∀ f ∈ t.loaded, f ∈ loaded.files) (hsub' : ∀ f ∈ t₁.loaded, f ∈ loaded.files)
    (hmirrors : Mirrors machine loaded native t t') (hmeets : Meets machine loaded native p p')
    (hvisit : visitEntry machine .compat running root.path t p = .ok t₁) :
    ∃ t₁', visitEntry machine' .native running' (native root).path t' p' = .ok t₁' ∧
      Mirrors machine loaded native t₁ t₁' := by
  unfold visitEntry at hvisit
  obtain ⟨⟨resolved, boundary, clones⟩, hresolve, hvisit⟩ := Except.bind_eq_ok.mp hvisit
  obtain ⟨⟨⟩, hcontains, hvisit⟩ := Except.bind_eq_ok.mp hvisit
  obtain ⟨yaml, -, hvisit⟩ := Except.bind_eq_ok.mp hvisit
  obtain ⟨g, hg, rfl, hside, hresolve', hcontains'⟩ :=
    resolveEntry_native h hmeets hclones hresolve hcontains
  obtain ⟨-, hcarried, -⟩ := resolveEntry_ok hclones hresolve
  have hyaml : boundary.isSome = true → configFileFormat (native g).path = some .yaml := by
    intro hsome
    rw [h.rewritten.bundle g hg (hside.trans hsome)]
    exact h.carriesOver.bundlesYaml g hg (hside.trans hsome)
  have hyaml' : p'.boundary.isSome = true → configFileFormat (native g).path = some .yaml := by
    intro hsome
    apply hyaml
    obtain ⟨hsame, ⟨path, _, hentry, -⟩ | ⟨_, _, _, _, _, _, _, hentry, -⟩⟩ :=
      h.convert_shape hmeets
    · rw [hcarried, hentry, ← hsame]
      exact hsome
    · -- An entry of a bundle is no Git include.
      cases hmeets with
      | owned => cases hsome
      | bundle => cases hentry
  obtain ⟨yaml', hwritten, hreviewed⟩ := checkEntryWrittenFor_native h hjudges running' hmeets hyaml
  have hmem := hmirrors.mem_seen h hseen hsub hg
  have hnoted := noteLocalInclude_native hmirrors.localIncludes hyaml'
  have hyamls : ∀ e ∈ t'.yamlBundleEntries ++ yaml', e.reviewed = none := by
    intro e he
    exact (List.mem_append.mp he).elim (hmirrors.yaml e) (hreviewed e)
  rw [← hmirrors.clones] at hresolve'
  split at hvisit
  · next hin =>
      obtain ⟨⟨⟩, hgrants, hvisit⟩ := Except.bind_eq_ok.mp hvisit
      cases hvisit
      have hgrants' := checkGrants_native h hmirrors hmeets hg hside hgrants
      refine ⟨_, visitEntry_again hresolve' hcontains' hwritten (hmem.mpr hin) hgrants', ?_⟩
      exact ⟨hmirrors.files, hmirrors.seen, rfl, hmirrors.grants, hmirrors.queue, hnoted, hyamls⟩
  · next hnot =>
      obtain ⟨f, hread, hvisit⟩ := Except.bind_eq_ok.mp hvisit
      cases hvisit
      obtain ⟨hpath, hboundary, -⟩ := readIncluded_ok hread
      obtain rfl : f = g :=
        h.found.tree.path_unique (hsub' f (List.mem_append_right _ List.mem_cons_self)) hg hpath
      have hne : f ≠ root := by
        rintro rfl
        exact hnot (hseen ▸ List.mem_map_of_mem hroot)
      have hread' : readIncluded machine' .native (native f).path boundary p'.entry =
          .ok (native f) := by
        rw [← hboundary] at hread ⊢
        exact readIncluded_native h hg hne hread
      refine ⟨_, visitEntry_new hresolve' hcontains' hwritten
        (fun hin => hnot (hmem.mp hin)) hread', ?_⟩
      refine ⟨?_, ?_, rfl, record_native h hmirrors.grants hg _, ?_, hnoted, hyamls⟩
      · show t'.loaded ++ [native f] = (t.loaded ++ [f]).map native
        rw [hmirrors.files, List.map_append]
        rfl
      · show t'.seen ++ [(native f).path] = (t'.loaded ++ [native f]).map LoadedFile.path
        rw [hmirrors.seen, List.map_append]
        rfl
      · exact List.rel_append hmirrors.queue (h.pending hg)

/-! ### The whole walk -/

theorem mirrors_start (h : Carried machine machine' unicode loaded root native) :
    Mirrors machine loaded native (startTraversal root) (startTraversal (native root)) where
  files := rfl
  seen := rfl
  clones := rfl
  grants := fun _ _ _ => rfl
  queue := h.pending h.found.tree.root_mem
  localIncludes := fun _ he => absurd he List.not_mem_nil
  yaml := fun _ he => absurd he List.not_mem_nil

theorem visitEntry_loaded {running : Option String} {t t₁ : Traversal} {p : Pending}
    (hclones : ClonesOf machine t.gitRepoPaths)
    (hvisit : visitEntry machine .compat running root.path t p = .ok t₁) :
    t.loaded ⊆ t₁.loaded := by
  obtain ⟨resolved, -, -, -, ⟨-, -, -, -, hloaded, -⟩ | ⟨-, f, -, -, -, -, -, -, hloaded⟩⟩ :=
    visitEntry_cases hclones hvisit
  · rw [hloaded]
    exact List.Subset.refl _
  · rw [hloaded]
    exact List.subset_append_left _ _

theorem traverseStep_visit {running : Option String} {path : Path} {format : ConfigFormat}
    {t t₁ : Traversal} (hstep : traverseStep machine format running path t = .ok (.inl t₁)) :
    ∃ p queue, t.queue = p :: queue ∧
      visitEntry machine format running path { t with queue := queue } p = .ok t₁ := by
  unfold traverseStep at hstep
  split at hstep
  · cases hstep
  · next p queue hqueue =>
      cases hvisit : visitEntry machine format running path { t with queue := queue } p with
      | error e =>
          rw [hvisit] at hstep
          cases hstep
      | ok t' =>
          rw [hvisit] at hstep
          cases hstep
          exact ⟨p, queue, hqueue, hvisit⟩

/-- The walk over a converted project goes beside the one over its source to the end. -/
theorem traverse_native (h : Carried machine machine' unicode loaded root native)
    (hjudges : machine'.JudgesYaml) {running : Option String} (running' : Option String)
    {rounds : ℕ} {t : Traversal} (hroot : root.boundary = none) (hloaded : t.loaded = loaded.files)
    (hwalk : traverse machine .compat running rounds root = some (.ok t)) :
    ∃ t', traverse machine' .native running' rounds (native root) = some (.ok t') ∧
      Mirrors machine loaded native t t' := by
  refine Loop.run_related
    (R := fun s s' => Walked machine .compat root s ∧ Mirrors machine loaded native s s') ?_ ?_
    ⟨walked_start hroot, mirrors_start h⟩ hwalk
  · rintro s s' s₁ ⟨hwalked, hmirrors⟩ hstep hends
    have hwalked₁ := hwalked.step hstep
    -- What this state has loaded, the walk still has where it ends.
    have hsub₁ : ∀ f ∈ s₁.loaded, f ∈ loaded.files := by
      obtain ⟨last, ⟨-, hsub⟩, hlast⟩ :=
        hends.last (P := fun s => Walked machine .compat root s ∧ s₁.loaded ⊆ s.loaded)
        ⟨hwalked₁, List.Subset.refl _⟩ (by
          rintro a b ⟨ha, hsub⟩ hab
          obtain ⟨p, queue, -, hvisit⟩ := traverseStep_visit hab
          exact ⟨ha.step hab, List.Subset.trans hsub
            (visitEntry_loaded (t := { a with queue := queue }) ha.clones hvisit)⟩)
      have hlast' : last = t := by
        unfold traverseStep at hlast
        split at hlast
        · cases hlast
          rfl
        · next p queue _ =>
            cases hvisit : visitEntry machine .compat running root.path
              { last with queue := queue } p <;>
              rw [hvisit] at hlast <;> cases hlast
      intro f hf
      rw [← hloaded, ← hlast']
      exact hsub hf
    obtain ⟨p, queue, hqueue, hvisit⟩ := traverseStep_visit hstep
    have hsub : ∀ f ∈ s.loaded, f ∈ loaded.files := fun f hf =>
      hsub₁ f (visitEntry_loaded (t := { s with queue := queue }) hwalked.clones hvisit hf)
    have hqueues := hmirrors.queue
    rw [hqueue] at hqueues
    obtain ⟨p', queue', hmeets, hrest, hqueue'⟩ := List.forall₂_cons_left_iff.mp hqueues
    have hpopped : Mirrors machine loaded native { s with queue := queue }
      { s' with queue := queue' } :=
      ⟨hmirrors.files, hmirrors.seen, hmirrors.clones, hmirrors.grants, hrest,
        hmirrors.localIncludes, hmirrors.yaml⟩
    have hrooted : root ∈ s.loaded := by
      obtain ⟨rest, hrest⟩ := hwalked.rooted
      rw [hrest]
      exact List.mem_cons_self
    obtain ⟨s₁', hvisit', hmirrors₁⟩ :=
      visitEntry_native (t := { s with queue := queue }) h hjudges running' hwalked.clones
      hwalked.seen hrooted hsub hsub₁ hpopped hmeets hvisit
    refine ⟨s₁', ?_, hwalked₁, hmirrors₁⟩
    unfold traverseStep
    rw [hqueue']
    simp only
    rw [hvisit']
    rfl
  · rintro s s' ⟨-, hmirrors⟩ hend
    unfold traverseStep at hend
    split at hend
    · next hqueue =>
        cases hend
        have hqueues := hmirrors.queue
        rw [hqueue, List.forall₂_nil_left_iff] at hqueues
        refine ⟨s', ?_, hmirrors⟩
        unfold traverseStep
        rw [hqueues]
    · next p queue _ =>
        cases hvisit : visitEntry machine .compat running root.path { s with queue := queue } p <;>
          rw [hvisit] at hend <;> cases hend

/-! ### After the walk -/

theorem scanTargets_yaml {targets : List Path}
    (h : ∀ target ∈ targets, configFileFormat target = some .yaml) (seen queue : List Path) :
    ∃ next, scanTargets targets seen queue = .inr next := by
  induction targets generalizing seen queue with
  | nil => exact ⟨(seen, queue), rfl⟩
  | cons target rest ih =>
      have hrest := fun t ht => h t (List.mem_cons_of_mem _ ht)
      unfold scanTargets
      rw [if_neg (by rw [h target List.mem_cons_self]; decide)]
      split
      · exact ih hrest _ _
      · exact ih hrest _ _

/-- A bundle whose local includes are YAML files reaches no TOML file. -/
theorem tomlWalk_yaml {localIncludes : List (Path × Path)}
    (h : ∀ e ∈ localIncludes, configFileFormat e.2 = some .yaml) (rounds : ℕ)
    (seen queue : List Path) : tomlWalk localIncludes rounds seen queue = none := by
  induction rounds generalizing seen queue with
  | zero => rfl
  | succ rounds ih =>
      cases queue with
      | nil => rfl
      | cons file queue =>
          have htargets : ∀ target ∈ localTargets localIncludes file,
              configFileFormat target = some .yaml := by
            intro target htarget
            obtain ⟨e, he, rfl⟩ := List.mem_map.mp htarget
            exact h e (List.mem_filter.mp he).1
          obtain ⟨next, hnext⟩ := scanTargets_yaml htargets seen queue
          unfold tomlWalk
          rw [hnext]
          exact ih _ _

theorem checkYamlBundles_native (hjudges : machine'.JudgesYaml) (running : Option String)
    {t t' : Traversal} (hmirrors : Mirrors machine loaded native t t') :
    checkYamlBundles machine' running t' = .ok () := by
  cases running with
  | none => rfl
  | some running =>
      refine Except.forM_eq_ok.mpr ?_
      intro e he
      have hok :=
        hjudges.checkBundle running
          ⟨e.entryFile, e.declaredIn, e.declaredInBatect, .yamlRoot, none, e.reviewed,
        e.boundary.bundle.id, e.entry⟩ rfl rfl (hmirrors.yaml e he)
      unfold YamlBundleEntry.check firstTomlReached
      rw [tomlWalk_yaml hmirrors.localIncludes]
      show refusedWrittenFor (machine'.checkBundle running _) = .ok ()
      rw [Option.map_none, hok]
      rfl

theorem keys_of_mapEntriesM {V W : Type} {m : IndexMap String V} {m' : IndexMap String W}
    {f : String → V → Except ConvertError W} (h : m.mapEntriesM f = .ok m') : m'.keys = m.keys :=
  IndexMap.map_eq_of_forall₂ (IndexMap.mapEntriesM_ok h) fun _ _ hab => hab.1

/-- A file and its counterpart declare the same names. -/
theorem Rewritten.names (h : Rewritten machine machine' unicode loaded root native) {f : LoadedFile}
    (hf : f ∈ loaded.files) (name : String) :
    (name ∈ (native f).file.taskEntries.map Prod.fst ↔ name ∈ f.file.taskEntries.map Prod.fst) ∧
      (name ∈ (native f).file.containerEntries.map Prod.fst ↔
        name ∈ f.file.containerEntries.map Prod.fst) ∧
      (name ∈ (native f).file.variableEntries.map Prod.fst ↔
        name ∈ f.file.variableEntries.map Prod.fst) := by
  cases hboundary : f.boundary with
  | some b =>
      rw [h.bundle f hf (by rw [hboundary]; rfl)]
      exact ⟨Iff.rfl, Iff.rfl, Iff.rfl⟩
  | none =>
      have hrewrite := h.owned f (mem_owned.mpr ⟨hf, hboundary⟩)
      refine ⟨?_, ?_, ?_⟩
      · unfold ConfigFile.taskEntries
        rw [hrewrite.tasks]
        show name ∈ IndexMap.keys (IndexMap.sorted _) ↔ name ∈ f.file.tasks.keys
        rw [IndexMap.mem_keys_sorted, IndexMap.keys_mapEntries]
      · obtain ⟨containers, hconverted, hcontainers⟩ := hrewrite.containers
        unfold ConfigFile.containerEntries
        rw [hcontainers]
        show name ∈ IndexMap.keys (IndexMap.sorted _) ↔ name ∈ f.file.containers.keys
        rw [IndexMap.mem_keys_sorted, IndexMap.keys_mapEntries, keys_of_mapEntriesM hconverted]
      · unfold ConfigFile.variableEntries
        rw [hrewrite.configVariables]
        cases f.file.configVariables with
        | none => exact Iff.rfl
        | some declared => exact IndexMap.mem_keys_sorted

/-- What clashes among the counterparts clashes among the files. -/
theorem Carried.clash {V : Type} (h : Carried machine machine' unicode loaded root native)
    {declared : ConfigFile → List (String × V)}
    (hnames : ∀ f ∈ loaded.files, ∀ name, name ∈ (declared (native f).file).map Prod.fst ↔
      name ∈ (declared f.file).map Prod.fst)
    (hclash : Merge.Clash declared (loaded.files.map native)) :
    Merge.Clash declared loaded.files := by
  obtain ⟨f', hf', g', hg', hne, name, hfn, hgn⟩ := hclash
  obtain ⟨f, hf, rfl⟩ := List.mem_map.mp hf'
  obtain ⟨g, hg, rfl⟩ := List.mem_map.mp hg'
  refine ⟨f, hf, g, hg, ?_, name, (hnames f hf name).mp hfn, (hnames g hg name).mp hgn⟩
  intro hpath
  exact hne (congrArg (fun f => (native f).path) (h.found.tree.path_unique hf hg hpath))

theorem Carried.not_declaredTwice (h : Carried machine machine' unicode loaded root native) :
    ¬ DeclaredTwice (loaded.files.map native) := by
  intro htwice
  apply h.found.merge.disjoint
  rcases htwice with hclash | hclash | hclash
  · exact Or.inl (h.clash (fun f hf name => (h.rewritten.names hf name).1) hclash)
  · exact Or.inr (Or.inl (h.clash (fun f hf name => (h.rewritten.names hf name).2.1) hclash))
  · exact Or.inr (Or.inr (h.clash (fun f hf name => (h.rewritten.names hf name).2.2) hclash))

theorem finishLoad_keeps {format : ConfigFormat} {running : Option String} {file : LoadedFile}
    {t : Traversal} {merged : LoadedConfig}
    (h : finishLoad machine format running file t = .ok merged) :
    merged.config.forbidTelemetry = file.file.forbidTelemetry ∧ merged.format = format := by
  unfold finishLoad at h
  obtain ⟨_, -, h⟩ := Except.bind_eq_ok.mp h
  obtain ⟨_, -, h⟩ := Except.bind_eq_ok.mp h
  obtain ⟨_, -, h⟩ := Except.bind_eq_ok.mp h
  obtain ⟨_, -, h⟩ := Except.bind_eq_ok.mp h
  obtain ⟨_, -, h⟩ := Except.bind_eq_ok.mp h
  cases h
  exact ⟨rfl, rfl⟩

/-- A walk whose files declare each name once is merged. -/
theorem finishLoad_succeeds {format : ConfigFormat} {running : Option String} {file : LoadedFile}
    {t : Traversal} {name : String} (hyaml : checkYamlBundles machine running t = .ok ())
    (hname : format.projectName machine file.path file.file.projectName = .ok name)
    (hpaths : (t.loaded.map LoadedFile.path).Nodup) (hdisjoint : ¬ DeclaredTwice t.loaded) :
    ∃ merged,
      finishLoad machine format running file t = .ok merged ∧ merged.config.projectName = name ∧
      merged.config.forbidTelemetry = file.file.forbidTelemetry := by
  unfold DeclaredTwice at hdisjoint
  obtain ⟨htasks, hrest⟩ := not_or.mp hdisjoint
  obtain ⟨hcontainers, hvariables⟩ := not_or.mp hrest
  refine ⟨_, Except.bind_eq_ok.mpr
    ⟨(), hyaml, Except.bind_eq_ok.mpr ⟨name, hname, Except.bind_eq_ok.mpr ⟨(), ?_,
    Except.bind_eq_ok.mpr ⟨(), ?_, Except.bind_eq_ok.mpr ⟨(), ?_, rfl⟩⟩⟩⟩⟩, rfl, rfl⟩
  · exact (rejectDuplicates_fails "task" taskEntries_nodup hpaths).2.mpr htasks
  · exact (rejectDuplicates_fails "container" containerEntries_nodup hpaths).2.mpr hcontainers
  · exact (rejectDuplicates_fails "config variable" variableEntries_nodup hpaths).2.mpr hvariables

/-! ### The converted project -/

/-- Where no check asks for the grant for nested Git includes, a bundle's files declare none. -/
theorem plain_of_answers {files : List ConvertedFile} (h : Found machine root loaded)
    (hanswers : Answers machine loaded unicode files)
    (hnested : ∀ c ∈ files, ∀ check ∈ c.checks, check.kind ≠ .bundleDeclaresGitIncludes) :
    ∀ f ∈ loaded.files, f.boundary.isSome = true → ∀ entry ∈ f.file.includes,
      entry.remote = none := by
  -- Each of them is reached through local includes from a Git include of an owned file.
  let Reached (f : LoadedFile) : Prop :=
    ∃ d ∈ loaded.ownedFiles, ∃ entry ∈ d.file.includes, entry.remote.isSome = true ∧
    ∃ g ∈ loaded.files, entryTarget machine .compat d.path entry = some g.path ∧
      Relation.ReflTransGen (LocalEdge machine loaded) g.path f.path
  have hplain : ∀ f ∈ loaded.files, Reached f → ∀ entry ∈ f.file.includes, entry.remote = none := by
    rintro f hf ⟨d, hd, entry, hentry, hremote, g, hg, htarget, hreach⟩ nested hmem
    by_contra hgit
    have hgit : nested.remote.isSome = true := Option.isSome_iff_ne_none.mpr hgit
    have hneeds : entry.NeedsNestedGrant machine loaded d.path :=
      ⟨hremote, g, hg, htarget, f.path, hreach, f, hf, rfl, nested, hmem, hgit⟩
    have hsource : d.path ∈ files.map ConvertedFile.source :=
      hanswers.sources ▸ List.mem_map_of_mem hd
    obtain ⟨c, hc, hpath⟩ := List.mem_map.mp hsource
    obtain ⟨check, hcheck, -, hkind⟩ :=
      (hanswers.nested c hc d hd hpath.symm).mpr ⟨entry, hentry, hneeds⟩
    exact hnested c hc check hcheck hkind
  have hreached : ∀ f ∈ loaded.files, f.boundary.isSome = true → Reached f := by
    refine h.tree.induction ?_ ?_
    · intro hbundle
      rw [h.tree.owned] at hbundle
      cases hbundle
    · intro d hd f hf entry hentry hfollowed hboundary hd' hbundle
      cases entry with
      | file path =>
          have hsame : d.boundary = f.boundary := hboundary.symm
          obtain ⟨d₀, hd₀, entry₀, hentry₀, hremote, g, hg, htarget, hreach⟩ :=
            hd' (by rw [hsame]; exact hbundle)
          refine ⟨d₀, hd₀, entry₀, hentry₀, hremote, g, hg, htarget,
            hreach.tail ⟨d, hd, rfl, path, hentry, ?_⟩⟩
          obtain ⟨g', -, hresolve, htarget'⟩ := h.resolveLocal hd hentry
          rw [hresolve, Option.some.inj (htarget'.symm.trans hfollowed.target)]
      | git repo gitRef path hostPaths nestedGit reviewed =>
          cases hside : d.boundary with
          | none =>
              exact ⟨d, mem_owned.mpr ⟨hd, hside⟩, _, hentry, rfl, f, hf, hfollowed.target, .refl⟩
          | some b => cases hplain d hd (hd' (by rw [hside]; rfl)) _ hentry
  exact fun f hf hbundle => hplain f hf (hreached f hf hbundle)

/-- What a native load makes of a conversion: the root it starts from, and what it reads and
merges. -/
structure LoadsConverted (machine machine' : Machine) (unicode : Char → Bool)
    (running : Option String) (rounds : ℕ) (path : Path) (loaded : LoadedConfig)
    (converted : List ConvertedFile) (root : LoadedFile) (first : ConvertedFile)
    (loaded' : LoadedConfig) : Prop where
  head : converted.head? = some first
  rewritten : Rewritten machine machine' unicode loaded root (counterpart converted)
  owned : root ∈ loaded.ownedFiles
  source : absolutePath machine path = .ok root.path
  place : first.target = (counterpart converted root).path
  target : absolutePath machine' first.target = .ok first.target
  load : loadFromFile machine' .native running rounds first.target = some (.ok loaded')
  files : loaded'.files = loaded.files.map (counterpart converted)
  gitClones : loaded'.gitClones = loaded.gitClones
  projectName : loaded'.config.projectName = loaded.config.projectName
  forbidTelemetry : loaded'.config.forbidTelemetry = loaded.config.forbidTelemetry

theorem loads_converted {running : Option String} (running' : Option String) {rounds : ℕ}
    {path : Path} {render : Document → Option String → Except String Text} {writtenFor : String}
    {files : List ConvertedFile}
    (hload : loadFromFile machine .compat running rounds path = some (.ok loaded))
    (hconvert : convertProject machine loaded unicode render writtenFor = .ok files)
    (hwrote : machine.Wrote machine' files) (hgrounded : machine.Grounded)
    (hjudges : machine'.JudgesYaml) (hpath : Paths.Proper path)
    (hname : (Paths.fileName path).isSome = true) (hcarries : loaded.CarriesOver)
    (hnested : ∀ c ∈ files, ∀ check ∈ c.checks, check.kind ≠ .bundleDeclaresGitIncludes) :
    ∃ root first loaded',
      LoadsConverted machine machine' unicode running' rounds path loaded files
        root first loaded' := by
  obtain ⟨root, hfound⟩ := found_of_load hload
  obtain ⟨root', hread, hnone, hfrom⟩ := loadFromFile_ok hload
  obtain rfl : root' = root := by
    obtain ⟨rest, hrest⟩ := (loadFrom_tree hnone hfrom).rooted
    obtain ⟨rest', hrest'⟩ := hfound.tree.rooted
    exact (List.cons.inj (hrest.symm.trans hrest')).1
  obtain ⟨-, habsolute, -⟩ := readRoot_ok hread
  have hrooted := hfound.tree.rooted_paths hgrounded habsolute hpath
  have hrootName : (Paths.fileName root'.path).isSome = true := by
    obtain ⟨n, hn⟩ := Option.isSome_iff_exists.mp hname
    obtain ⟨dir, rfl⟩ := Paths.fileName_eq_some.mp hn
    obtain ⟨dir', hdir, -⟩ := absolutePath_concat hgrounded habsolute
    rw [hdir, Paths.fileName_concat]
    rfl
  have hanswers := answers_of_ok hfound hconvert
  have hrewritten := rewritten_of_convert hfound hrooted hrootName hwrote hconvert
  have hcarried : Carried machine machine' unicode loaded root' (counterpart files) :=
    ⟨hfound, hgrounded, hrooted, hrewritten, hcarries, plain_of_answers hfound hanswers hnested⟩
  have howned : root' ∈ loaded.ownedFiles := mem_owned.mpr ⟨hfound.tree.root_mem, hnone⟩
  have hroot := hrewritten.owned root' howned
  -- The walk goes side by side, and the merge follows it.
  obtain ⟨t, hwalk, hfinish⟩ := loadFrom_ok hfrom
  obtain ⟨hfiles, hclones⟩ := finishLoad_files hfinish
  obtain ⟨t', hwalk', hmirrors⟩ := traverse_native hcarried hjudges running' hnone hfiles.symm hwalk
  have hloaded' : t'.loaded = loaded.files.map (counterpart files) := by rw [hmirrors.files, hfiles]
  have hpaths : (t'.loaded.map LoadedFile.path).Nodup := by
    rw [hloaded', List.map_map]
    exact (List.Nodup.of_map _ hfound.tree.nodup).map_on fun f hf g hg heq =>
      hcarried.injective hf hg heq
  have hprojectName : ConfigFormat.projectName .native machine' (counterpart files root').path
      (counterpart files root').file.projectName = .ok loaded.config.projectName := by
    rw [hrewritten.projectName]
    rfl
  obtain ⟨merged, hmerged, hproject, htelemetry⟩ :=
    finishLoad_succeeds (checkYamlBundles_native hjudges running' hmirrors)
    hprojectName hpaths (hloaded' ▸ hcarried.not_declaredTwice)
  obtain ⟨hfiles', hclones'⟩ := finishLoad_files hmerged
  -- The root that the native load starts from is the first converted file.
  have hsources := hanswers.sources
  obtain ⟨includes, hincludes⟩ := hfound.owned_rooted
  rw [hincludes, List.map_cons] at hsources
  obtain ⟨first, rest, rfl, hsource, -⟩ := List.map_eq_cons_iff.mp hsources
  have htarget : first.target = (counterpart (first :: rest) root').path := by
    have hpairs : (first :: rest).map (fun c => (c.source, c.target)) = loaded.targets := by
      unfold LoadedConfig.targets
      rw [← hanswers.sources, ← hanswers.targets, List.zip_map']
    have hpair : (first.source, first.target) ∈ loaded.targets := hpairs ▸ List.mem_cons_self
    have hget := targets_get?_of_mem hfound hpair
    rw [hsource, hroot.target] at hget
    exact (Option.some.inj hget).symm
  have habsolute' : absolutePath machine' first.target = .ok first.target := by
    obtain ⟨dir, n, m, hpathRoot, hbeside, -⟩ := hroot.beside
    have hdir := hrooted root' hfound.tree.root_mem
    rw [hpathRoot] at hdir
    have htargetRooted : Paths.Rooted first.target := by
      rw [htarget, hbeside]
      exact (rooted_dir hdir).append m
    rw [absolutePath_extends hrewritten.machines]
    unfold absolutePath at *
    split at habsolute
    · cases habsolute
    · next current hcurrent =>
        rw [Paths.join_absolute htargetRooted.isAbsolute, htargetRooted.clean]
  have hreadNative : readRoot machine' .native first.target =
      .ok (counterpart (first :: rest) root') := by
    unfold readRoot
    refine Except.bind_eq_ok.mpr ⟨first.target, habsolute', Except.bind_eq_ok.mpr
      ⟨(counterpart (first :: rest) root').file, ?_, Except.bind_eq_ok.mpr ⟨(), ?_, ?_⟩⟩⟩
    · unfold ConfigFormat.parse
      rw [htarget]
      simp only [hroot.format]
      rw [hroot.readToml]
      rfl
    · unfold rejectMisplacedRatectVersion ConfigFormat.readsAsBatect
      rw [htarget, hroot.format]
      simp
    · show Except.ok _ = Except.ok _
      rw [htarget, ← hroot.boundary]
  have hloadNative : loadFromFile machine' .native running' rounds first.target =
      some (.ok merged) := by
    unfold loadFromFile
    rw [hreadNative]
    show (traverse machine' .native running' rounds _).map _ = _
    rw [hwalk', Option.map_some]
    exact congrArg some hmerged
  refine ⟨root', first, merged, rfl, hrewritten, howned, habsolute, htarget,
    habsolute', hloadNative,
    hfiles'.trans hloaded', ?_, hproject, ?_⟩
  · rw [hclones', hmirrors.clones, hclones]
  · rw [htelemetry, hroot.forbidTelemetry]
    exact (finishLoad_keeps hfinish).1.symm

/-- **A converted project loads.**  Where a conversion's files are written and it asks for no grant,
a native load from its root reads the converted counterparts of the owned files and the same files
of the bundles, in the order that the source's were loaded in, and merges them. -/
theorem converted_project_loads {running : Option String} (running' : Option String) {rounds : ℕ}
    {path : Path} {render : Document → Option String → Except String Text} {writtenFor : String}
    {files : List ConvertedFile}
    (hload : loadFromFile machine .compat running rounds path = some (.ok loaded))
    (hconvert : convertProject machine loaded unicode render writtenFor = .ok files)
    (hwrote : machine.Wrote machine' files) (hgrounded : machine.Grounded)
    (hjudges : machine'.JudgesYaml) (hpath : Paths.Proper path)
    (hname : (Paths.fileName path).isSome = true) (hcarries : loaded.CarriesOver)
    (hnested : ∀ c ∈ files, ∀ check ∈ c.checks, check.kind ≠ .bundleDeclaresGitIncludes) :
    ∃ first loaded', files.head? = some first ∧
      loadFromFile machine' .native running' rounds first.target = some (.ok loaded') ∧
      loaded'.files = loaded.files.map (counterpart files) ∧ loaded'.gitClones = loaded.gitClones ∧
      loaded'.config.projectName = loaded.config.projectName ∧
      loaded'.config.forbidTelemetry = loaded.config.forbidTelemetry ∧
        MergeOf loaded' loaded'.files := by
  obtain ⟨root, first, loaded', h⟩ :=
    loads_converted running' hload hconvert hwrote hgrounded hjudges hpath hname hcarries hnested
  exact ⟨first, loaded', h.head, h.load, h.files, h.gitClones, h.projectName, h.forbidTelemetry,
    loadFromFile_merge h.load⟩

/-! ### A project and its conversion -/

/-- A machine with the converted files written, where every YAML file of a bundle says what it was
written for. -/
def Machine.writing (machine : Machine) (files : List ConvertedFile) : Machine :=
  { machine with
    isFile := fun p => machine.isFile p || files.any fun c => c.target = p
    readToml := fun p =>
      match files.find? fun c => c.target = p with
      | some c => .ok c.readBack
      | none => machine.readToml p
    readWrittenFor := fun _ => .ok (some .yamlRoot) }

theorem wrote_writing {machine : Machine} {files : List ConvertedFile}
    (hdistinct : (files.map ConvertedFile.target).Nodup) :
    machine.Wrote (machine.writing files) files where
  currentDir := rfl
  homeDirectory := rfl
  ensureCached := rfl
  isFile := fun p => by simp [Machine.writing, List.any_eq_true]
  canonicalize := fun _ _ h => h
  readYaml := fun _ _ => rfl
  readToml := fun c hc => by
    unfold Machine.writing
    simp only
    cases hfind : files.find? fun d => d.target = c.target with
    | none => simpa using List.find?_eq_none.mp hfind c hc
    | some d =>
        have htarget : d.target = c.target := by simpa using List.find?_some hfind
        rw [List.inj_on_of_nodup_map hdistinct (List.mem_of_find?_eq_some hfind) hc htarget]

/-- An include that is written with the name of a file at its end. -/
def IncludeEntry.isNamed : IncludeEntry → Bool
  | .file path => (Paths.fileName (Paths.ofText path)).any fun n => decide (n.text ≠ ['~'])
  | .git .. => true

theorem named_of_isNamed {path : Text} (h : (IncludeEntry.file path).isNamed = true) :
    (Paths.fileName (Paths.ofText path)).isSome = true ∧ ∀ m, Paths.ofText path = [.normal m] →
      m.text ≠ ['~'] := by
  obtain ⟨n, hn, htilde⟩ := Option.any_eq_true _ _ |>.mp h
  refine ⟨by rw [hn]; rfl, ?_⟩
  intro m hm
  rw [hm] at hn
  cases hn
  exact of_decide_eq_true htilde

/-- A project with an include of its own, and a bundle of two files. -/
def portedProject : Machine :=
  let file (includes : List IncludeEntry) (name : String) : ConfigFile :=
    { includes := includes,
      containers := .single name { healthCheck := some ⟨none, none, none, none, none⟩ } }
  Machine.inMemory (Paths.ofText "/p".toList) (Paths.ofText "/h".toList)
    [ (Paths.ofText "/p/batect.yml".toList,
        file [.file "more/a.yml".toList, .git ⟨"x"⟩ "1.0" none true none none] "root"),
      (Paths.ofText "/p/more/a.yml".toList, file [] "a"),
      (Paths.ofText "/cache/x/batect-bundle.yml".toList, file [.file "b.yml".toList] "x"),
      (Paths.ofText "/cache/x/b.yml".toList, file [] "b") ]
    [((⟨"x"⟩, "1.0"), Paths.ofText "/cache/x".toList)]

theorem rooted_cached : Paths.Rooted (Paths.ofText "/cache/x".toList) :=
  rooted_ofText_clean (by decide +kernel) (by decide +kernel)

theorem grounded_portedProject : portedProject.Grounded := by
  refine grounded_inMemory (rooted_ofText_clean (by decide +kernel) (by decide +kernel))
    (rooted_ofText_clean (by decide +kernel) (by decide +kernel)) ?_
  intro e he
  rw [List.mem_singleton] at he
  rw [he]
  exact rooted_cached

/-- A test of what carries over, for a project whose one clone is `/cache/x`. -/
def LoadedConfig.carries (loaded : LoadedConfig) : Bool :=
  decide (loaded.gitClones = [((⟨"x"⟩, "1.0"), Paths.ofText "/cache/x".toList)]) &&
    (loaded.files.all fun f =>
      f.boundary.isNone || decide (configFileFormat f.path = some .yaml)) &&
    loaded.ownedFiles.all fun f =>
      !Paths.startsWith f.path (Paths.ofText "/cache/x".toList) &&
        f.file.includes.all IncludeEntry.isNamed

theorem carriesOver_of_carries {loaded : LoadedConfig} (h : loaded.carries = true) :
    loaded.CarriesOver := by
  unfold LoadedConfig.carries at h
  rw [Bool.and_eq_true, Bool.and_eq_true] at h
  obtain ⟨⟨hclones, hbundles⟩, howned⟩ := h
  have hclones := of_decide_eq_true hclones
  refine ⟨?_, ?_, ?_⟩
  · intro f hf hbundle
    rcases Bool.or_eq_true _ _ |>.mp (List.all_eq_true.mp hbundles f hf) with hnone | hyaml
    · rw [Option.isNone_iff_eq_none] at hnone
      rw [hnone] at hbundle
      cases hbundle
    · exact of_decide_eq_true hyaml
  · intro e he
    rw [hclones, List.mem_singleton] at he
    rw [he]
    refine ⟨rooted_cached, fun f hf => ?_⟩
    exact (Bool.not_eq_true' _).mp (Bool.and_eq_true _ _ |>.mp (List.all_eq_true.mp howned f hf)).1
  · intro f hf path hpath
    have hnamed := (Bool.and_eq_true _ _ |>.mp (List.all_eq_true.mp howned f hf)).2
    exact named_of_isNamed (List.all_eq_true.mp hnamed _ hpath)

/-- The converted root, the converted include and the two files of the bundle load as their sources
did. -/
theorem converted_project_loads_ported : ∃ loaded files first loaded',
    loadFromFile portedProject .compat none 10
      (Paths.ofText "/p/batect.yml".toList) = some (.ok loaded) ∧
      convertProject portedProject loaded (fun _ => false) (fun _ _ => .ok []) "0.1.0" = .ok files ∧
      files.head? = some first ∧
      loadFromFile (portedProject.writing files) .native none 10 first.target = some (.ok loaded') ∧
      loaded'.files.map LoadedFile.path =
        ["/p/ratect.toml", "/p/more/a.toml", "/cache/x/batect-bundle.yml", "/cache/x/b.yml"].map
          (fun p => Paths.ofText p.toList) := by
  have hrun : Loop.succeeds
      (fun loaded => loaded.carries && Loop.succeeds (fun files : List ConvertedFile =>
        (files.all fun c => c.checks.all fun check =>
          decide (check.kind ≠ .bundleDeclaresGitIncludes)) &&
          decide ((loaded.files.map (counterpart files)).map LoadedFile.path =
            ["/p/ratect.toml", "/p/more/a.toml", "/cache/x/batect-bundle.yml", "/cache/x/b.yml"].map
              (fun p => Paths.ofText p.toList)))
        (some (convertProject portedProject loaded (fun _ => false) (fun _ _ => .ok []) "0.1.0")))
      (loadFromFile portedProject .compat none 10 (Paths.ofText "/p/batect.yml".toList)) =
        true := by decide +kernel
  obtain ⟨loaded, hloaded, htest⟩ := Loop.exists_of_succeeds hrun
  obtain ⟨hcarries, hconvert⟩ := Bool.and_eq_true _ _ |>.mp htest
  obtain ⟨files, hfiles, htest⟩ := Loop.exists_of_succeeds hconvert
  obtain ⟨hchecks, hpaths⟩ := Bool.and_eq_true _ _ |>.mp htest
  have hfiles := Option.some.inj hfiles
  obtain ⟨root, hfound⟩ := found_of_load hloaded
  have hwrote :=
    (wrote_writing (answers_of_ok hfound hfiles).distinct : portedProject.Wrote
      (portedProject.writing files) files)
  obtain ⟨first, loaded', hfirst, hnative, hfiles', -⟩ :=
    converted_project_loads none hloaded hfiles hwrote
    grounded_portedProject ⟨fun _ _ => Or.inr rfl, fun _ _ _ _ _ => rfl⟩
      (Paths.proper_ofText _) (by decide +kernel)
    (carriesOver_of_carries hcarries) (by
      intro c hc check hcheck
      exact of_decide_eq_true (List.all_eq_true.mp (List.all_eq_true.mp hchecks c hc) check hcheck))
  refine ⟨loaded, files, first, loaded', hloaded, hfiles, hfirst, hnative, ?_⟩
  rw [hfiles']
  exact of_decide_eq_true hpaths

end Ratect
