import Ratect.CacheStore

/-! # The quiet listing and the clean it is piped into

`-o quiet` prints `CacheSelection::actionable`, and what it prints is given back to a clean as the
names that it may remove.  The two are computed apart: the listing from one selection, the clean
from the storage, with the names as a filter.  Over an unchanged storage they agree
(`quiet_listing_is_cleaned`): volumes because a clean by the names of all of them matches all of
them (`matchingCacheVolumes_eq`), directories because a scan for the names that a scan for all has
found finds the same (`scanEntries_only`), as long as these are text.

Only without `--scope` does a clean refuse what the listing printed: a name that a shared cache has
too. -/

namespace Ratect

open Paths (Path)

/-! ### What is printed, and what is removed -/

/-- `actionable`: what `-o quiet` prints. -/
def CacheSelection.actionable (found : CacheSelection) : List Text :=
  if found.scope = some .shared then found.shared else found.owned

/-- With no scope given, a cache of the project and a shared one have the same name. -/
def CacheSelection.Ambiguous (found : CacheSelection) : Prop :=
  found.scope = none ∧ ∃ name ∈ found.owned, name ∈ found.shared

/-- The names of the subdirectories among the entries; a link to one is none. -/
def subdirectories (entries : List (Except String DirEntry)) : List OsName :=
  entries.filterMap fun entry => entry.toOption.bind fun entry =>
    if entry.fileType = .ok .directory then some entry.name else none

/-- Those of a directory, as it lists them. -/
def Storage.subdirectories (storage : Storage) (root : Path) : List OsName :=
  match storage.readDir root with
  | some (.ok entries) => Ratect.subdirectories entries
  | _ => []

/-- The directory that holds the caches of a scope. -/
def CacheStore.cacheRoot (scope : Option Config.CacheScope) : CacheStore → Option Path
  | .volume _ => none
  | .directory projectDirectory sharedRoot =>
      if scope = some .shared then sharedRoot else some (cacheDirectory projectDirectory)

/-- The caches of a scope: the volumes with its start, or the subdirectories of its directory. -/
def CacheStore.held (store : CacheStore) (storage : Storage) (scope : Option Config.CacheScope) :
    List StorageRemoval :=
  match store with
  | .volume _ => ((storage.listVolumes.toOption.getD []).filter fun volume =>
      (stripPrefix (store.start scope) volume).isSome).map .volume
  | .directory _ _ => ((store.cacheRoot scope).map fun root =>
      (storage.subdirectories root).map (.directory root)).getD []

/-- The names of the caches' directories are text. -/
def CacheStore.NamesAreText (store : CacheStore) (storage : Storage)
    (scope : Option Config.CacheScope) : Prop :=
  ∀ root, store.cacheRoot scope = some root → ∀ name ∈ storage.subdirectories root,
    ∃ text, name = OsName.ofText text

namespace Clean

/-- The removals that were attempted, in order. -/
def removals (clean : Clean) : List StorageRemoval :=
  clean.steps.filterMap fun
    | .attempted removal _ => some removal
    | _ => none

/-- Every removal succeeds. -/
def Succeeds (clean : Clean) : Prop := ∀ removal, .attempted removal false ∉ clean.steps

/-- If every removal succeeds, what is removed is what was held, each once, and what is reported of
it has the names, each once. -/
def Clears (clean : Clean) (start : Text) (names : List Text) (held : List StorageRemoval) : Prop :=
  clean.Succeeds → clean.result = .ok (clean.removals.map (StorageRemoval.reported start)) ∧
    (clean.removals.map fun removal => (StorageRemoval.reported start removal).name).Perm names ∧
    clean.removals.Perm held

variable {clean : Clean} {start : Text} {names : List Text} {held : List StorageRemoval}

theorem Clears.perm (h : clean.Clears start names held) {names' : List Text}
    (hperm : names.Perm names') : clean.Clears start names' held := by
  intro hsucceeds
  obtain ⟨hresult, hnames, hremovals⟩ := h hsucceeds
  exact ⟨hresult, hnames.trans hperm, hremovals⟩

/-- Warnings change nothing about the removals. -/
theorem Clears.warned (h : clean.Clears start names held) (warnings : List String) :
    Clears ⟨warnings.map .warning ++ clean.steps, clean.result⟩ start names held := by
  intro hsucceeds
  have hremovals : removals ⟨warnings.map .warning ++ clean.steps, clean.result⟩ =
      clean.removals := by
    unfold removals
    simp [List.filterMap_append, List.filterMap_map]
  rw [hremovals]
  exact h fun removal hmem => hsucceeds removal (List.mem_append_right _ hmem)

end Clean

section removing

variable {α : Type} {cache : α → RemovedCache} {removal : α → StorageRemoval}
  {remove : List StorageRemoval → α → Except String Unit}

/-- A loop of removals that all succeed goes through the items. -/
theorem removeEach_succeeds {done items : List α}
    (h : (removeEach cache removal remove done items).Succeeds) :
    (removeEach cache removal remove done items).result = .ok ((done ++ items).map cache) ∧
      (removeEach cache removal remove done items).removals = items.map removal := by
  induction items generalizing done with
  | nil => exact ⟨by rw [List.append_nil]; rfl, rfl⟩
  | cons item items ih =>
      unfold removeEach at h ⊢
      cases hremove : remove (done.map removal) item with
      | error e =>
          rw [hremove] at h
          exact absurd (by simp) (h (removal item))
      | ok u =>
          rw [hremove] at h
          have hrest : (removeEach cache removal remove (done ++ [item]) items).Succeeds :=
            fun r hr => h r (List.mem_append_right _ hr)
          obtain ⟨hresult, hremovals⟩ := ih hrest
          constructor
          · dsimp only
            rw [hresult, List.append_assoc]
            rfl
          · rw [List.map_cons, ← hremovals]
            rfl

theorem removeEach_clears {start : Text} {items : List α} {held : List StorageRemoval}
    (hreport : ∀ a, cache a = StorageRemoval.reported start (removal a))
    (hheld : (items.map removal).Perm held) :
    (removeEach cache removal remove [] items).Clears start
      (items.map fun item => (cache item).name) held := by
  intro hsucceeds
  obtain ⟨hresult, hremovals⟩ := removeEach_succeeds hsucceeds
  rw [hresult, hremovals, List.nil_append, List.map_map, List.map_map]
  refine ⟨congrArg Except.ok (List.map_congr_left fun a _ => hreport a), ?_, hheld⟩
  rw [List.map_congr_left fun a _ => congrArg RemovedCache.name (hreport a)]
  exact List.Perm.refl _

end removing

/-! ### Volumes -/

theorem stripPrefix_append (start rest : Text) : stripPrefix start (start ++ rest) = some rest :=
  stripPrefix_eq_some.mpr rfl

/-- The volumes that match are those of the selected names. -/
theorem matchingCacheVolumes_eq (existing : List Text) (start : Text) (only : List Text) :
    matchingCacheVolumes existing start only =
      ((existing.filterMap (stripPrefix start)).filter (selects only)).map (start ++ ·) := by
  unfold matchingCacheVolumes
  induction existing with
  | nil => rfl
  | cons volume existing ih =>
      cases hvolume : stripPrefix start volume with
      | none =>
          rw [List.filterMap_cons_none hvolume, List.filter_cons_of_neg (by simp [hvolume]), ih]
      | some name =>
          rw [List.filterMap_cons_some hvolume]
          by_cases hname : selects only name = true
          · rw [List.filter_cons_of_pos (by simp [hvolume, hname]),
              List.filter_cons_of_pos hname, List.map_cons, ih, stripPrefix_eq_some.mp hvolume]
          · rw [List.filter_cons_of_neg (by simp [hvolume, hname]),
              List.filter_cons_of_neg hname, ih]

theorem filter_selects {names only : List Text} (h : ∀ name ∈ names, name ∈ only) :
    names.filter (selects only) = names :=
  List.filter_eq_self.mpr fun name hname => selects_iff.mpr (Or.inr (h name hname))

/-- A clean by the names of all the volumes with the start clears them. -/
theorem removeCacheVolumes_clears {storage : Storage} {existing only : List Text} {start : Text}
    (honly : ∀ name ∈ existing.filterMap (stripPrefix start), name ∈ only) :
    (removeCacheVolumes storage (matchingCacheVolumes existing start only) start).Clears start
      (existing.filterMap (stripPrefix start))
      ((existing.filter fun volume => (stripPrefix start volume).isSome).map .volume) := by
  have hmatching : matchingCacheVolumes existing start only =
      existing.filter fun volume => (stripPrefix start volume).isSome := by
    unfold matchingCacheVolumes
    refine List.filter_congr fun volume hvolume => ?_
    cases hname : stripPrefix start volume with
    | none => rfl
    | some name =>
        have hin : name ∈ only := honly name (List.mem_filterMap.mpr ⟨volume, hvolume, hname⟩)
        exact selects_iff.mpr (.inr hin)
  unfold removeCacheVolumes
  have hreport : ∀ volume, (⟨(stripPrefix start volume).getD volume, volume⟩ : RemovedCache) =
      StorageRemoval.reported start (.volume volume) := fun _ => rfl
  refine (removeEach_clears hreport (List.Perm.of_eq ?_)).perm (List.Perm.of_eq ?_)
  · rw [hmatching]
  · rw [matchingCacheVolumes_eq, filter_selects honly, List.map_map]
    refine (List.map_congr_left ?_).trans (List.map_id _)
    intro name _
    show (stripPrefix start (start ++ name)).getD (start ++ name) = name
    rw [stripPrefix_append, Option.getD_some]

/-- The project's caches, of all that a listing finds. -/
theorem cachesOf_project {storage : Storage} {key : Text} {existing : List Text}
    {found : List (Text × Config.CacheScope)} (hexisting : storage.listVolumes = .ok existing)
    (hfound : listAllVolumeCaches storage (some key) = .ok found) :
    cachesOf .project found = existing.filterMap (stripPrefix (cacheVolumeName key [])) := by
  unfold listAllVolumeCaches at hfound
  rw [hexisting] at hfound
  cases hfound
  unfold cachesOf
  rw [List.filter_filterMap, List.map_filterMap]
  apply List.filterMap_congr
  intro volume _
  cases hname : stripPrefix (cacheVolumeName key []) volume with
  | some name => simp [hname]
  | none => cases hshared : stripPrefix (sharedCacheVolumeName []) volume <;> simp [hname]

/-- The shared caches, of all that a listing without a project's key finds. -/
theorem cachesOf_shared {storage : Storage} {existing : List Text}
    {found : List (Text × Config.CacheScope)} (hexisting : storage.listVolumes = .ok existing)
    (hfound : listAllVolumeCaches storage none = .ok found) :
    cachesOf .shared found = existing.filterMap (stripPrefix (sharedCacheVolumeName [])) := by
  unfold listAllVolumeCaches at hfound
  rw [hexisting] at hfound
  cases hfound
  unfold cachesOf
  rw [List.filter_filterMap, List.map_filterMap]
  apply List.filterMap_congr
  intro volume _
  cases hshared : stripPrefix (sharedCacheVolumeName []) volume <;> simp

/-! ### Directories -/

/-- A scan for names that a scan for all has found finds what that one found. -/
theorem scanEntries_only {cacheDir : Path} {only : List Text}
    {entries : List (Except String DirEntry)} {found all : CacheDirectoryScan}
    (hall : scanEntries cacheDir [] found entries = .ok all)
    (honly : ∀ name ∈ all.matched, name ∈ only) (found' : CacheDirectoryScan)
    (hfound : found'.matched = found.matched) :
    ∃ named, scanEntries cacheDir only found' entries = .ok named ∧
      named.matched = all.matched := by
  induction entries generalizing found found' with
  | nil =>
      cases hall
      exact ⟨found', rfl, hfound⟩
  | cons entry entries ih =>
      unfold scanEntries at hall ⊢
      cases entry with
      | error e => cases hall
      | ok entry =>
          dsimp only at hall ⊢
          rw [if_neg (by simp [selects])] at hall
          cases htype : entry.fileType with
          | error e =>
              rw [htype] at hall
              cases hall
          | ok fileType =>
              rw [htype] at hall
              cases fileType with
              | symlink =>
                  split
                  · exact ih hall _ hfound
                  · exact ih hall _ hfound
              | other =>
                  split
                  · exact ih hall _ hfound
                  · exact ih hall _ hfound
              | directory =>
                  have hmem : entry.name.toStringLossy ∈ all.matched :=
                    (scanEntries_matched hall _).mpr
                      (Or.inl (List.mem_append_right _ List.mem_cons_self))
                  rw [if_neg (by simp [selects_iff.mpr (Or.inr (honly _ hmem))])]
                  exact ih hall _ (congrArg (· ++ [entry.name.toStringLossy]) hfound)

/-- The same of the directories that a scan matches, in order. -/
theorem scanCacheDirectories_only {storage : Storage} {cacheDir : Path} {only : List Text}
    {all : CacheDirectoryScan} (hall : scanCacheDirectories storage cacheDir [] = .ok (some all))
    (honly : ∀ name ∈ all.matched, name ∈ only) :
    ∃ named, scanCacheDirectories storage cacheDir only = .ok (some named) ∧
      named.matched = all.matched := by
  unfold scanCacheDirectories at hall ⊢
  split at hall
  · cases hall
  · cases hall
  · obtain ⟨scan, hscan, h⟩ := Except.bind_eq_ok.mp hall
    cases h
    obtain ⟨named, hnamed, hmatched⟩ :=
      scanEntries_only hscan (fun name hname => honly name (mem_sortTexts.mpr hname)) ⟨[], []⟩ rfl
    refine ⟨{ named with matched := sortTexts named.matched }, ?_, congrArg sortTexts hmatched⟩
    rw [hnamed]
    rfl

/-- What a listing found in a directory was found by a scan of it. -/
theorem scan_of_matchingCacheDirectories {storage : Storage} {cacheDir : Path} {names : List Text}
    (h : matchingCacheDirectories storage cacheDir [] = .ok names) (hsome : names ≠ []) :
    ∃ all, scanCacheDirectories storage cacheDir [] = .ok (some all) ∧ all.matched = names := by
  obtain ⟨all, hall, hnames⟩ := Except.bind_eq_ok.mp h
  cases hnames
  cases all with
  | none => exact absurd rfl hsome
  | some all => exact ⟨all, hall, rfl⟩

/-- A scan for all finds the subdirectories, by their names as text. -/
theorem scanEntries_all {cacheDir : Path} {entries : List (Except String DirEntry)}
    {found all : CacheDirectoryScan} (h : scanEntries cacheDir [] found entries = .ok all) :
    all.matched = found.matched ++ (subdirectories entries).map OsName.toStringLossy := by
  induction entries generalizing found with
  | nil =>
      cases h
      simp [subdirectories]
  | cons entry entries ih =>
      unfold scanEntries at h
      cases entry with
      | error e => cases h
      | ok entry =>
          dsimp only at h
          rw [if_neg (by simp [selects])] at h
          cases htype : entry.fileType with
          | error e =>
              rw [htype] at h
              cases h
          | ok fileType =>
              rw [htype] at h
              have hfirst : subdirectories (.ok entry :: entries) =
                  (if fileType = .directory then [entry.name] else []) ++
                    subdirectories entries := by
                unfold subdirectories
                rw [List.filterMap_cons]
                simp only [Except.toOption, Option.bind_some, htype, Except.ok.injEq]
                split_ifs with hdirectory
                · rfl
                · rfl
              rw [hfirst]
              cases fileType with
              | symlink =>
                  rw [ih h]
                  simp
              | other =>
                  rw [ih h]
                  simp
              | directory =>
                  rw [ih h]
                  simp

/-- What a scan for all matches, whatever their order. -/
theorem scanCacheDirectories_all {storage : Storage} {cacheDir : Path} {all : CacheDirectoryScan}
    (h : scanCacheDirectories storage cacheDir [] = .ok (some all)) :
    all.matched.Perm ((storage.subdirectories cacheDir).map OsName.toStringLossy) := by
  unfold scanCacheDirectories at h
  unfold Storage.subdirectories
  split at h
  · cases h
  · cases h
  · next entries hentries =>
      obtain ⟨scan, hscan, h⟩ := Except.bind_eq_ok.mp h
      cases h
      rw [hentries]
      have hall := scanEntries_all hscan
      rw [List.nil_append] at hall
      exact hall ▸ List.mergeSort_perm _ _

theorem removeCacheDirectories_clears {storage : Storage} {root : Path} {names : List Text}
    (start : Text) (hnames : names.Perm ((storage.subdirectories root).map OsName.toStringLossy))
    (htext : ∀ name ∈ storage.subdirectories root, ∃ text, name = OsName.ofText text) :
    (removeCacheDirectories storage root names).Clears start names
      ((storage.subdirectories root).map (.directory root)) := by
  unfold removeCacheDirectories
  have hheld : (names.map fun name => StorageRemoval.directory root (OsName.ofText name)).Perm
      ((storage.subdirectories root).map (.directory root)) := by
    refine (hnames.map _).trans (List.Perm.of_eq ?_)
    rw [List.map_map]
    refine List.map_congr_left fun name hname => ?_
    obtain ⟨text, rfl⟩ := htext name hname
    show StorageRemoval.directory root (OsName.ofText (OsName.ofText text).toStringLossy) = _
    rw [OsName.toStringLossy_ofText]
  refine (removeEach_clears (fun name => (reported_directory start root name).symm) hheld).perm
    (List.Perm.of_eq ?_)
  exact List.map_id names

/-! ### The store -/

namespace CacheStore

variable {store : CacheStore} {storage : Storage} {scope : Option Config.CacheScope}
    {owned shared only : List Text}

/-- What a listing of volumes reads. -/
theorem listed_volume {projectCacheKey : Except String Text}
    (h : (volume projectCacheKey).listed storage scope = .ok (owned, shared)) :
    ∃ key existing found,
      (if scope = some .shared then .ok none else projectCacheKey.map some) = .ok key ∧
      storage.listVolumes = .ok existing ∧ listAllVolumeCaches storage key = .ok found ∧
      owned = cachesOf .project found ∧ shared = cachesOf .shared found := by
  have hkeyed : ∃ key,
      (if scope = some .shared then .ok none else projectCacheKey.map some) = .ok key ∧
      (do let found ← listAllVolumeCaches storage key
          return (cachesOf .project found, cachesOf .shared found)) =
            Except.ok (owned, shared) := by
    by_cases hshared : scope = some .shared
    · rw [if_pos hshared]
      subst hshared
      exact ⟨none, rfl, h⟩
    · rw [if_neg hshared]
      unfold listed at h
      dsimp only at h
      rw [if_neg hshared] at h
      exact Except.bind_eq_ok.mp h
  obtain ⟨key, hkey, h⟩ := hkeyed
  obtain ⟨found, hfound, h⟩ := Except.bind_eq_ok.mp h
  cases h
  obtain ⟨existing, hexisting, -⟩ := Except.bind_eq_ok.mp hfound
  exact ⟨key, existing, found, hkey, hexisting, hfound, rfl, rfl⟩

/-- What a listing of directories reads. -/
theorem listed_directory {projectDirectory : Path} {sharedRoot : Option Path}
    (h : (directory projectDirectory sharedRoot).listed storage scope = .ok (owned, shared)) :
    matchingCacheDirectories storage (cacheDirectory projectDirectory) [] = .ok owned ∧
      match sharedRoot with
      | some root => matchingCacheDirectories storage root [] = .ok shared
      | none => shared = [] := by
  unfold listed at h
  obtain ⟨names, hnames, h⟩ := Except.bind_eq_ok.mp h
  cases sharedRoot with
  | none =>
      cases h
      exact ⟨hnames, rfl⟩
  | some root =>
      obtain ⟨found, hfound, h⟩ := Except.bind_eq_ok.mp h
      cases h
      exact ⟨hnames, hfound⟩

/-- A clean of the project's caches by all their names. -/
theorem removeProject_clears (hlisted : store.listed storage scope = .ok (owned, shared))
    (hscope : scope ≠ some .shared) (hsome : owned ≠ []) (honly : ∀ name ∈ owned, name ∈ only)
    (htext : store.NamesAreText storage scope) :
    (store.removeProject storage only).Clears (store.start scope) owned
    (store.held storage scope) := by
  cases store with
  | volume projectCacheKey =>
      obtain ⟨key, existing, found, hkey, hexisting, hfound, rfl, -⟩ := listed_volume hlisted
      rw [if_neg hscope] at hkey
      cases hread : projectCacheKey with
      | error e =>
          rw [hread] at hkey
          cases hkey
      | ok text =>
          rw [hread] at hkey
          cases hkey
          rw [cachesOf_project hexisting hfound] at honly ⊢
          unfold removeProject cleanVolumeCaches
          dsimp only
          rw [hexisting]
          have hstart : (volume (.ok text)).start scope = cacheVolumeName text [] := if_neg hscope
          unfold held
          rw [hstart, hexisting]
          exact removeCacheVolumes_clears honly
  | directory projectDirectory sharedRoot =>
      obtain ⟨hnames, -⟩ := listed_directory hlisted
      obtain ⟨all, hall, rfl⟩ := scan_of_matchingCacheDirectories hnames hsome
      obtain ⟨named, hnamed, hmatched⟩ := scanCacheDirectories_only hall honly
      unfold removeProject cleanDirectoryCaches
      dsimp only
      rw [hnamed]
      dsimp only
      rw [hmatched, show ∀ links : List Text, links.map (fun link =>
          CleanStep.warning (skippedLink (cacheDirectory projectDirectory) link)) =
        (links.map (skippedLink (cacheDirectory projectDirectory))).map
          .warning from fun links => by
          rw [List.map_map]; rfl]
      have hroot : (directory projectDirectory sharedRoot).cacheRoot scope =
          some (cacheDirectory projectDirectory) := if_neg hscope
      unfold held
      rw [hroot]
      exact (removeCacheDirectories_clears _ (scanCacheDirectories_all hall) (htext _ hroot)).warned
        _

/-- A clean of the shared caches by all their names. -/
theorem removeShared_clears (hlisted : store.listed storage (some .shared) = .ok (owned, shared))
    (hsome : shared ≠ []) (honly : ∀ name ∈ shared, name ∈ only)
    (htext : store.NamesAreText storage (some .shared)) :
    (store.removeShared storage only).Clears (store.start (some .shared)) shared
      (store.held storage (some .shared)) := by
  obtain ⟨first, hfirst⟩ := List.exists_mem_of_ne_nil shared hsome
  have hwanted : ¬ only.isEmpty = true := by
    rw [List.isEmpty_iff]
    exact List.ne_nil_of_mem (honly first hfirst)
  cases store with
  | volume projectCacheKey =>
      obtain ⟨key, existing, found, hkey, hexisting, hfound, -, rfl⟩ := listed_volume hlisted
      cases hkey
      rw [cachesOf_shared hexisting hfound] at honly ⊢
      unfold removeShared cleanSharedVolumeCaches
      dsimp only
      rw [hexisting]
      dsimp only
      unfold matchingSharedCacheVolumes
      rw [if_neg hwanted]
      have hstart : (volume projectCacheKey).start (some .shared) = sharedCacheVolumeName [] := by
        cases projectCacheKey with
        | error e => rfl
        | ok key => rfl
      unfold held
      rw [hstart, hexisting]
      exact removeCacheVolumes_clears honly
  | directory projectDirectory sharedRoot =>
      obtain ⟨-, hfound⟩ := listed_directory hlisted
      cases sharedRoot with
      | none => exact absurd hfound hsome
      | some root =>
          obtain ⟨all, hall, rfl⟩ := scan_of_matchingCacheDirectories hfound hsome
          obtain ⟨named, hnamed, hmatched⟩ := scanCacheDirectories_only hall honly
          have hnames : matchingCacheDirectories storage root only = .ok all.matched := by
            unfold matchingCacheDirectories
            rw [hnamed, ← hmatched]
            rfl
          unfold removeShared cleanSharedDirectoryCaches
          dsimp only
          rw [if_neg hwanted, hnames]
          exact removeCacheDirectories_clears _ (scanCacheDirectories_all hall) (htext root rfl)

/-- What a listing is made of. -/
theorem list_cases {found : CacheSelection} (h : store.list storage scope = .ok found) :
    ∃ owned shared, store.listed storage scope = .ok (owned, shared) ∧
      found.owned = (if scope = some .shared then [] else sortTexts owned) ∧
      found.shared = (if scope = some .project then [] else sortTexts shared) := by
  obtain ⟨⟨owned, shared⟩, hlisted, h⟩ := Except.bind_eq_ok.mp h
  cases h
  exact ⟨owned, shared, hlisted, rfl, rfl⟩

theorem mem_sharedOnly {found : CacheSelection} {wanted : List Text} {name : Text} :
    name ∈ found.sharedOnly wanted ↔ name ∈ found.shared ∧ name ∈ wanted := by
  unfold CacheSelection.sharedOnly
  rw [mem_sortTexts, List.mem_filter, decide_eq_true_eq]

/-- Under the scope of the shared caches a clean by names is not refused. -/
theorem remove_shared {found : CacheSelection} (hscope : found.scope = some .shared)
    (hnamed : only ≠ []) :
    store.remove storage found only = .inr (store.removeShared storage only) := by
  have hrefusal : refusal found only = none := by
    unfold refusal
    rw [if_neg (fun h => hnamed (List.isEmpty_iff.mp h.1)), if_neg (fun h => h hscope)]
  unfold remove
  rw [hrefusal]
  exact congrArg Sum.inr (if_pos hscope)

/-- Otherwise it is refused exactly if it names a shared cache. -/
theorem remove_project {found : CacheSelection} (hscope : found.scope ≠ some .shared) :
    store.remove storage found only =
      match (found.sharedOnly only).head? with
      | some name => .inl (.sharedNotNamed name)
      | none => .inr (store.removeProject storage only) := by
  have hrefusal : refusal found only = (found.sharedOnly only).head?.map .sharedNotNamed := by
    unfold refusal
    rw [if_neg (fun h => hscope h.2), if_pos hscope]
  unfold remove
  rw [hrefusal, if_neg hscope]
  cases (found.sharedOnly only).head? <;> rfl

/-- **What the quiet listing prints is what the matching clean removes.**  Whatever the storage
holds, as long as it stays that way: a clean by the names that were printed is refused exactly if no
scope was given and one of them is a shared cache's too, with such a name; otherwise it goes ahead,
and if the directories' names are text and every removal succeeds, it removes the caches of the
scope, each once, and reports the names that were printed. -/
theorem quiet_listing_is_cleaned {found : CacheSelection}
    (hfound : store.list storage scope = .ok found) (hsome : found.actionable ≠ [])
    (honly : ∀ name, name ∈ only ↔ name ∈ found.actionable) :
    (found.Ambiguous → ∃ name ∈ found.owned, name ∈ found.shared ∧
      store.remove storage found only = .inl (.sharedNotNamed name)) ∧
    (¬ found.Ambiguous → ∃ clean, store.remove storage found only = .inr clean ∧
      (store.NamesAreText storage scope →
        clean.Clears (store.start scope) found.actionable (store.held storage scope))) := by
  have hscope := list_scope hfound
  obtain ⟨owned, shared, hlisted, howned, hshared⟩ := list_cases hfound
  unfold CacheSelection.Ambiguous
  by_cases hsharedScope : scope = some .shared
  · -- What is printed is shared, and named.
    subst hsharedScope
    have hactionable : found.actionable = sortTexts shared := (if_pos hscope).trans hshared
    rw [hactionable] at hsome honly ⊢
    have hperm : (sortTexts shared).Perm shared := List.mergeSort_perm _ _
    have hnames : ∀ name ∈ shared, name ∈ only :=
      fun name hname => (honly name).mpr (hperm.mem_iff.mpr hname)
    have hnonempty : shared ≠ [] := by
      rintro rfl
      exact hsome List.mergeSort_nil
    obtain ⟨first, hfirst⟩ := List.exists_mem_of_ne_nil shared hnonempty
    constructor
    · rintro ⟨h, -⟩
      rw [hscope] at h
      cases h
    · intro _
      refine ⟨_, remove_shared hscope (List.ne_nil_of_mem (hnames first hfirst)), fun htext => ?_⟩
      exact (removeShared_clears hlisted hnonempty hnames htext).perm hperm.symm
  · -- What is printed is the project's.
    have hproject : found.scope ≠ some .shared := hscope ▸ hsharedScope
    have hactionable : found.actionable = found.owned := if_neg hproject
    rw [if_neg hsharedScope] at howned
    rw [hactionable] at hsome honly ⊢
    have hperm : found.owned.Perm owned := howned ▸ List.mergeSort_perm _ _
    have hnames : ∀ name ∈ owned, name ∈ only :=
      fun name hname => (honly name).mpr (hperm.mem_iff.mpr hname)
    have hnonempty : owned ≠ [] := by
      rintro rfl
      exact hsome hperm.eq_nil
    rw [remove_project hproject]
    constructor
    · rintro ⟨-, name, hname, hboth⟩
      cases hhead : (found.sharedOnly only).head? with
      | none =>
          have hnil : found.sharedOnly only = [] := List.head?_eq_none_iff.mp hhead
          have hmem : name ∈ found.sharedOnly only :=
            mem_sharedOnly.mpr ⟨hboth, (honly name).mpr hname⟩
          rw [hnil] at hmem
          cases hmem
      | some refused =>
          obtain ⟨hrefused, hwanted⟩ := mem_sharedOnly.mp (List.mem_of_mem_head? hhead)
          exact ⟨refused, (honly refused).mp hwanted, hrefused, rfl⟩
    · intro hclear
      have hnone : found.sharedOnly only = [] := by
        apply List.eq_nil_iff_forall_not_mem.mpr
        intro name hname
        obtain ⟨hboth, hwanted⟩ := mem_sharedOnly.mp hname
        by_cases hproject : scope = some .project
        · rw [hshared, if_pos hproject] at hboth
          cases hboth
        · refine hclear ⟨?_, name, (honly name).mp hwanted, hboth⟩
          rw [hscope]
          match scope, hproject, hsharedScope with
          | none, _, _ => rfl
          | some .project, h, _ => exact absurd rfl h
          | some .shared, _, h => exact absurd rfl h
      rw [hnone]
      refine ⟨_, rfl, fun htext => ?_⟩
      exact (removeProject_clears hlisted hsharedScope hnonempty hnames htext).perm hperm.symm

end CacheStore

/-- The project's cache is printed, and removed when its name is given back; the link beside it is
not. -/
theorem quiet_listing_is_cleaned_directory :
    ∃ found, (CacheStore.new .directory (Paths.ofText "/p".toList) (.ok []) none).list
      plainCaches none =
        .ok found ∧
      found.actionable = ["gradle".toList] ∧
      ∃ clean, (CacheStore.new .directory (Paths.ofText "/p".toList) (.ok []) none).remove
        plainCaches found
          ["gradle".toList] = .inr clean ∧
        clean.Clears (sharedCacheVolumeName []) found.actionable
          [.directory exampleCaches (OsName.ofText "gradle".toList)] := by
  have hrun : ((CacheStore.new .directory (Paths.ofText "/p".toList) (.ok []) none).list plainCaches
      none).passes (fun found => decide
        (found.actionable = ["gradle".toList] ∧ found.shared = [])) = true := by
    decide +kernel
  obtain ⟨found, hfound, htest⟩ := Except.exists_of_passes hrun
  obtain ⟨hactionable, hshared⟩ := of_decide_eq_true htest
  refine ⟨found, hfound, hactionable, ?_⟩
  have hnames : plainCaches.subdirectories exampleCaches = [OsName.ofText "gradle".toList] := by
    decide +kernel
  have honly : ∀ name, name ∈ ["gradle".toList] ↔ name ∈ found.actionable := by
    intro name
    rw [hactionable]
  have hcleaned := CacheStore.quiet_listing_is_cleaned hfound
    (by rw [hactionable]; exact List.cons_ne_nil _ _) honly
  obtain ⟨clean, hclean, hclears⟩ := hcleaned.2 (by
    rintro ⟨-, name, -, hboth⟩
    rw [hshared] at hboth
    cases hboth)
  refine ⟨clean, hclean, ?_⟩
  have htext : (CacheStore.new .directory (Paths.ofText "/p".toList) (.ok []) none).NamesAreText
      plainCaches none := by
    intro root hroot name hname
    obtain rfl : exampleCaches = root := Option.some.inj hroot
    rw [hnames, List.mem_singleton] at hname
    exact ⟨_, hname⟩
  exact hclears htext

/-- A storage of volumes, in which every removal is done. -/
def volumeStorage (volumes : List String) : Storage :=
  { listVolumes := .ok (volumes.map String.toList)
    readDir := fun _ => none
    remove := fun _ _ => .ok () }

/-- A project with the key `k` and caches kept in volumes. -/
def exampleStore : CacheStore := .volume (.ok "k".toList)

/-- A cache of the project, and a shared one of the same name. -/
def clashingVolumes : Storage := volumeStorage ["ratect-shared-cache-clash", "batect-cache-k-clash"]

/-- A name that the project's cache has in common with a shared one is printed, and refused when it
is given back. -/
theorem quiet_listing_refused : ∃ found, exampleStore.list clashingVolumes none = .ok found ∧
    found.actionable = ["clash".toList] ∧
      exampleStore.remove clashingVolumes found found.actionable =
        .inl (.sharedNotNamed "clash".toList) := by
  have hrun : (exampleStore.list clashingVolumes none).passes (fun found => decide
      (found.actionable = ["clash".toList] ∧
        CacheStore.refusal found found.actionable = some (.sharedNotNamed "clash".toList))) =
          true := by
    decide +kernel
  obtain ⟨found, hfound, htest⟩ := Except.exists_of_passes hrun
  obtain ⟨hactionable, hrefusal⟩ := of_decide_eq_true htest
  refine ⟨found, hfound, hactionable, ?_⟩
  unfold CacheStore.remove
  rw [hrefusal]

end Ratect
