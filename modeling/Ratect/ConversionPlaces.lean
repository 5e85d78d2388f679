import Ratect.ConversionLookups

/-! # Where a check of a container belongs

Each item about a container that applies is listed under one owned file: the one that declares the
container, or the one that a bundle's container was reached from.  The climb from a bundle ends
because of the order of the load: the first file under a bundle arrived through a Git include of it
in a file loaded before, so every round looks at fewer files (`climbFrom_ok`). -/

namespace Ratect

open Paths (Path)

variable {machine : Machine} {root : LoadedFile} {loaded : LoadedConfig}

/-! ### From a bundle to an owned file -/

/-- A file was loaded under a bundle. -/
def LoadedFile.Under (bundle : BundleId) (f : LoadedFile) : Prop :=
  ∃ b, f.boundary = some b ∧ b.bundle.id = bundle

/-- A bundle is reached from an owned file, through the bundles that include it. -/
inductive ReachedFrom (loaded : LoadedConfig) : BundleId → Path → Prop
  | owned {bundle : BundleId} {f : LoadedFile} (hf : f ∈ loaded.files)
      (hdeclares : f.declares bundle = true)
      (hboundary : f.boundary = none) : ReachedFrom loaded bundle f.path
  | nested {bundle : BundleId} {f : LoadedFile} {b : Boundary} {p : Path} (hf : f ∈ loaded.files)
      (hdeclares : f.declares bundle = true) (hboundary : f.boundary = some b)
      (hrest : ReachedFrom loaded b.bundle.id p) : ReachedFrom loaded bundle p

theorem declares_of_remote {f : LoadedFile} {entry : IncludeEntry} {bundle : BundleId}
    (hentry : entry ∈ f.file.includes)
    (hremote : entry.remote = some (bundle.remote, bundle.gitRef)) : f.declares bundle = true := by
  unfold LoadedFile.declares
  rw [List.any_eq_true]
  refine ⟨entry, hentry, ?_⟩
  cases entry with
  | file path => cases hremote
  | git repo gitRef path hostPaths nestedGit reviewed =>
      cases hremote
      simp

/-- A bundle that some file declares has a declaring file: an owned one, or one loaded no later. -/
theorem declaring_some {l r : List LoadedFile} {d : LoadedFile} {bundle : BundleId}
    (hsplit : loaded.files = l ++ d :: r) (hd : d.declares bundle = true) :
    ∃ f ∈ loaded.files, loaded.declaring bundle = some f ∧ f.declares bundle = true ∧
      (f.boundary = none ∨ f ∈ l ++ [d]) := by
  unfold LoadedConfig.declaring
  simp only
  cases howned : (loaded.files.filter (LoadedFile.declares bundle)).find? fun file =>
    file.boundary.isNone with
  | some f =>
      obtain ⟨hf, hdeclares⟩ := List.mem_filter.mp (List.mem_of_find?_eq_some howned)
      refine ⟨f, hf, rfl, hdeclares, Or.inl ?_⟩
      simpa using List.find?_some howned
  | none =>
      have hfilter : loaded.files.filter (LoadedFile.declares bundle) =
          (l ++ [d]).filter (LoadedFile.declares bundle) ++
            r.filter (LoadedFile.declares bundle) := by
        rw [hsplit, ← List.filter_append, List.append_assoc]
        rfl
      have hmem : d ∈ (l ++ [d]).filter (LoadedFile.declares bundle) :=
        List.mem_filter.mpr ⟨List.mem_append_right _ List.mem_cons_self, hd⟩
      obtain ⟨f, rest, hfirst⟩ := List.exists_cons_of_ne_nil (List.ne_nil_of_mem hmem)
      obtain ⟨hf, hdeclares⟩ :=
        List.mem_filter.mp (hfirst ▸ List.mem_cons_self : f ∈ (l ++ [d]).filter _)
      refine ⟨f, ?_, ?_, hdeclares, Or.inr hf⟩
      · rw [hsplit, ← List.singleton_append, ← List.append_assoc]
        exact List.mem_append_left _ hf
      · rw [hfilter, hfirst]
        rfl

/-- The first file under a bundle came through a Git include of it in a file loaded before. -/
theorem declared_before (h : LoadedPart machine .compat root loaded.files) {bundle : BundleId}
    {l r : List LoadedFile} {g : LoadedFile} (hsplit : loaded.files = l ++ g :: r)
    (hunder : g.Under bundle) (hfirst : ∀ f ∈ l, ¬ f.Under bundle) :
    ∃ d ∈ l, d.declares bundle = true := by
  obtain ⟨b, hb, rfl⟩ := hunder
  rcases h.arrived l g r hsplit with ⟨-, rfl⟩ | ⟨d, hd, entry, hentry, -, hboundary, -⟩
  · rw [h.owned] at hb
    cases hb
  · refine ⟨d, hd, ?_⟩
    rw [hb] at hboundary
    cases entry with
    | file path => exact absurd ⟨b, hboundary.symm, rfl⟩ (hfirst d hd)
    | git repo gitRef path hostPaths nestedGit reviewed =>
        simp only [carriedBoundary] at hboundary
        split at hboundary
        · cases hboundary
        · cases hboundary
          exact declares_of_remote hentry rfl

/-- Climbing from a bundle ends at an owned file, in as many rounds as files loaded up to one under
it. -/
theorem climbFrom_ok (h : LoadedPart machine .compat root loaded.files) (bundle : BundleId)
    {rounds : ℕ} {wanted : BundleId} (hunder : ∃ g ∈ loaded.files.take rounds, g.Under wanted) :
    ∃ f ∈ loaded.files, f.boundary = none ∧ climbFrom loaded bundle rounds wanted = .ok f.path ∧
      ReachedFrom loaded wanted f.path := by
  classical
  induction rounds generalizing wanted with
  | zero =>
      obtain ⟨g, hg, -⟩ := hunder
      cases hg
  | succ rounds ih =>
      -- The first of these files under the bundle has its declaring file before it.
      obtain ⟨g, hg, hgunder⟩ := hunder
      have hsome : ((loaded.files.take (rounds + 1)).find? fun f =>
          decide (f.Under wanted)).isSome := by
        rw [List.find?_isSome]
        exact ⟨g, hg, by simpa using hgunder⟩
      obtain ⟨first, hfind⟩ := Option.isSome_iff_exists.mp hsome
      obtain ⟨hfirst, l, r, htake, hbefore⟩ := List.find?_eq_some_iff_append.mp hfind
      have hfiles : loaded.files = l ++ first :: (r ++ loaded.files.drop (rounds + 1)) := by
        conv_lhs => rw [← List.take_append_drop (rounds + 1) loaded.files, htake]
        simp
      have hlength : l.length ≤ rounds := by
        have hle := List.length_take_le (rounds + 1) loaded.files
        rw [htake, List.length_append, List.length_cons] at hle
        omega
      have hprefix : l <+: loaded.files.take rounds := by
        rw [List.prefix_take_iff]
        exact ⟨⟨_, hfiles.symm⟩, hlength⟩
      obtain ⟨d, hd, hdeclares⟩ := declared_before h hfiles (by simpa using hfirst)
        fun f hf => by simpa using hbefore f hf
      obtain ⟨l', r', hl⟩ := List.append_of_mem hd
      have hsplit : loaded.files =
          l' ++ d :: (r' ++ first :: (r ++ loaded.files.drop (rounds + 1))) := by
        rw [hl] at hfiles
        simpa using hfiles
      obtain ⟨f, hf, hdeclaring, hfdeclares, hcase⟩ := declaring_some hsplit hdeclares
      unfold climbFrom
      rw [hdeclaring]
      simp only
      cases hboundary : f.boundary with
      | none => exact ⟨f, hf, hboundary, rfl, .owned hf hfdeclares hboundary⟩
      | some b =>
          have hmem : f ∈ loaded.files.take rounds := by
            rcases hcase with hnone | hmem
            · rw [hnone] at hboundary
              cases hboundary
            · apply hprefix.subset
              rw [hl, ← List.singleton_append, ← List.append_assoc]
              exact List.mem_append_left _ hmem
          obtain ⟨f', hf', howned, hclimb, hreached⟩ := ih ⟨f, hmem, b, hboundary, rfl⟩
          exact ⟨f', hf', howned, hclimb, .nested hf hfdeclares hboundary hreached⟩

/-- `owned_file_reaching` answers for every bundle that a file was loaded under. -/
theorem ownedFileReaching_ok (h : LoadedPart machine .compat root loaded.files) {g : LoadedFile}
    (hg : g ∈ loaded.files) {b : Boundary} (hb : g.boundary = some b) :
    ∃ f ∈ loaded.files, f.boundary = none ∧ ownedFileReaching loaded b.bundle.id = .ok f.path ∧
      ReachedFrom loaded b.bundle.id f.path := by
  refine climbFrom_ok h b.bundle.id ⟨g, ?_, b, hb, rfl⟩
  rw [List.take_length]
  exact hg

/-! ### The containers that the checks are about -/

section subjects

variable {unicode : Char → Bool} {config : Config} {check : ConversionCheck}

/-- The check is about a container of the project. -/
def ConversionCheck.About (config : Config) (check : ConversionCheck) : Prop :=
  ∃ name ∈ config.containers.keys, check.container = some name

theorem about_runAsCurrentUser (h : check ∈ runAsCurrentUserChecks config) :
    check.About config := by
  obtain ⟨e, he, rfl⟩ := List.mem_map.mp h
  rw [(IndexMap.byKey_perm _).mem_iff, enabledRunAsCurrentUser, List.mem_filterMap] at he
  obtain ⟨c, hc, hbind⟩ := he
  obtain ⟨user, -, huser⟩ := Option.bind_eq_some_iff.mp hbind
  split at huser
  · cases huser
    exact ⟨c.1, IndexMap.mem_keys_of_mem hc, rfl⟩
  · cases huser

theorem about_homeDirectory (h : check ∈ homeDirectoryExpressionChecks unicode config) :
    check.About config := by
  obtain ⟨e, he, rfl⟩ := List.mem_map.mp h
  rw [(IndexMap.byKey_perm _).mem_iff, List.mem_filterMap] at he
  obtain ⟨user, huser, hhome⟩ := he
  obtain ⟨home, -, hhome⟩ := Option.bind_eq_some_iff.mp hhome
  rw [enabledRunAsCurrentUser, List.mem_filterMap] at huser
  obtain ⟨c, hc, hbind⟩ := huser
  obtain ⟨settings, -, hsettings⟩ := Option.bind_eq_some_iff.mp hbind
  split at hsettings
  · cases hsettings
    split at hhome
    · cases hhome
      exact ⟨c.1, IndexMap.mem_keys_of_mem hc, rfl⟩
    · cases hhome
  · cases hsettings

theorem about_compactVolume (h : check ∈ compactVolumeExpressionChecks unicode config) :
    check.About config := by
  obtain ⟨e, he, rfl⟩ := List.mem_map.mp h
  rw [(IndexMap.byKey_perm _).mem_iff, List.mem_flatMap] at he
  obtain ⟨c, hc, he⟩ := he
  obtain ⟨host, -, rfl⟩ := List.mem_map.mp he
  exact ⟨c.1, IndexMap.mem_keys_of_mem hc, rfl⟩

theorem about_ungatedTaskContainer (h : check ∈ ungatedTaskContainerChecks config) :
    check.About config := by
  obtain ⟨e, -, he⟩ := List.mem_filterMap.mp h
  obtain ⟨container, hcontainer, hcheck⟩ := Option.bind_eq_some_iff.mp he
  obtain ⟨-, hcheck⟩ := Option.ite_none_left_eq_some.mp hcheck
  obtain rfl := Option.some.inj hcheck
  exact ⟨e.1, IndexMap.mem_keys_of_mem (IndexMap.mem_entries_of_get? hcontainer), rfl⟩

/-- Every check of a container is about one that the project declares. -/
theorem conversionChecks_about (h : check ∈ conversionChecks unicode config) :
    check.About config := by
  unfold conversionChecks at h
  rw [(List.mergeSort_perm _ _).mem_iff, List.mem_append, List.mem_append, List.mem_append] at h
  rcases h with ((h | h) | h) | h
  · exact about_ungatedTaskContainer h
  · exact about_runAsCurrentUser h
  · exact about_homeDirectory h
  · exact about_compactVolume h

end subjects

/-! ### The file of a check -/

/-- The check is about a container whose file is converted, or it is one that a bundle's container
has too. -/
def LoadedConfig.applies (loaded : LoadedConfig) (check : ConversionCheck) : Bool :=
  (loaded.containerBoundaries.get? (check.container.getD "")).isNone ∨
    check.kind = .ungatedTaskContainer

/-- The check is about a container of the file, or of a bundle that the file leads to. -/
def ListedUnder (loaded : LoadedConfig) (check : ConversionCheck) (p : Path) : Prop :=
  ∃ f ∈ loaded.files, ∃ name ∈ f.file.containers.keys, check.container = some name ∧
    ((f.boundary = none ∧ f.path = p) ∨ ∃ b, f.boundary = some b ∧ ReachedFrom loaded b.bundle.id p)

theorem Found.container (h : Found machine root loaded) {name : String}
    (hname : name ∈ loaded.config.containers.keys) :
    ∃ f ∈ loaded.files, name ∈ f.file.containers.keys ∧
      loaded.containerOrigins.get? name = some f.path ∧
        loaded.containerBoundaries.get? name = f.boundary := by
  obtain ⟨container, hentry⟩ := IndexMap.mem_keys_iff.mp hname
  rw [h.merge.containers, List.mem_flatMap] at hentry
  obtain ⟨f, hf, hentry⟩ := hentry
  have hkey : name ∈ f.file.containers.keys := IndexMap.mem_keys_of_mem hentry
  obtain ⟨horigin, -, hboundary⟩ := h.merge.origins f hf name hkey
  exact ⟨f, hf, hkey, horigin, hboundary⟩

theorem mem_owned {f : LoadedFile} :
    f ∈ loaded.ownedFiles ↔ f ∈ loaded.files ∧ f.boundary = none := by
  unfold LoadedConfig.ownedFiles
  rw [List.mem_filter, Option.isNone_iff_eq_none]

/-- One check of a container is listed under an owned file, unless it does not apply. -/
theorem placeCheck_ok (h : Found machine root loaded) {check : ConversionCheck}
    (habout : check.About loaded.config) :
    (loaded.applies check = true ∧ ∃ f ∈ loaded.ownedFiles,
      placeCheck loaded check = .ok (some (f.path, check)) ∧
        ListedUnder loaded check f.path) ∨
      (loaded.applies check = false ∧ placeCheck loaded check = .ok none) := by
  obtain ⟨name, hname, hcontainer⟩ := habout
  obtain ⟨g, hg, hkey, horigin, hboundary⟩ := h.container hname
  unfold LoadedConfig.applies placeCheck
  simp only [hcontainer, Option.getD_some]
  rw [hboundary]
  cases hb : g.boundary with
  | none =>
      rw [horigin]
      exact Or.inl ⟨rfl, g, mem_owned.mpr ⟨hg, hb⟩, rfl, g, hg, name, hkey,
        hcontainer, Or.inl ⟨hb, rfl⟩⟩
  | some b =>
      by_cases hkind : check.kind = .ungatedTaskContainer
      · obtain ⟨f, hf, howned, hreaching, hreached⟩ :=
          ownedFileReaching_ok h.tree.toLoadedPart hg hb
        refine Or.inl ⟨by simpa using hkind, f, mem_owned.mpr ⟨hf, howned⟩, ?_, g, hg, name, hkey,
          hcontainer,
          Or.inr ⟨b, hb, hreached⟩⟩
        simp only [hkind, ne_eq, not_true_eq_false, if_false]
        rw [hreaching]
        rfl
      · refine Or.inr ⟨by simpa using hkind, ?_⟩
        simp only [ne_eq, hkind, not_false_eq_true, if_true]

theorem mapM_placeCheck (h : Found machine root loaded) {checks : List ConversionCheck}
    (habout : ∀ check ∈ checks, check.About loaded.config) :
    ∃ placed, checks.mapM (placeCheck loaded) = .ok placed ∧
      (placed.filterMap id).map Prod.snd = checks.filter loaded.applies ∧
      ∀ e ∈ placed.filterMap id,
        (∃ f ∈ loaded.ownedFiles, e.1 = f.path) ∧ ListedUnder loaded e.2 e.1 := by
  induction checks with
  | nil => exact ⟨[], rfl, rfl, fun e he => absurd he List.not_mem_nil⟩
  | cons check checks ih =>
      obtain ⟨placed, hplaced, hchecks, hlisted⟩ :=
        ih fun c hc => habout c (List.mem_cons_of_mem _ hc)
      rw [List.mapM_cons]
      rcases placeCheck_ok h (habout check List.mem_cons_self) with
          ⟨happlies, f, hf, hplace, hunder⟩ | ⟨happlies, hplace⟩
      · refine ⟨some (f.path, check) :: placed, ?_, ?_, ?_⟩
        · rw [hplace, hplaced]
          rfl
        · rw [List.filter_cons_of_pos happlies, ← hchecks]
          rfl
        · exact List.forall_mem_cons.mpr ⟨⟨⟨f, hf, rfl⟩, hunder⟩, hlisted⟩
      · refine ⟨none :: placed, ?_, ?_, ?_⟩
        · rw [hplace, hplaced]
          rfl
        · rw [List.filter_cons_of_neg (by simp [happlies]), ← hchecks]
          rfl
        · exact hlisted

/-- `checks_by_file` places each check that applies once, under an owned file. -/
theorem checksByFile_ok (h : Found machine root loaded) (unicode : Char → Bool) :
    ∃ placed, checksByFile loaded unicode = .ok placed ∧
      placed.map Prod.snd = (conversionChecks unicode loaded.config).filter loaded.applies ∧
      ∀ e ∈ placed, (∃ f ∈ loaded.ownedFiles, e.1 = f.path) ∧ ListedUnder loaded e.2 e.1 := by
  have habout : ∀ check ∈ conversionChecks unicode loaded.config, check.About loaded.config :=
    fun check hcheck => conversionChecks_about hcheck
  obtain ⟨placed, hplaced, hchecks, hlisted⟩ := mapM_placeCheck h habout
  refine ⟨placed.filterMap id, ?_, hchecks, hlisted⟩
  unfold checksByFile
  rw [hplaced]
  rfl

end Ratect
