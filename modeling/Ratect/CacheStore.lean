import Ratect.Binds

/-! # Listing and removing caches

`CacheStore` of `cache.rs`: what caches there are, project and shared, as Docker volumes or as
directories, and which of them a clean removes.  A clean reads the storage again (`Storage`), so
what it finds need not be what the listing found; each removal is reported before it is attempted
and again when it is done.

Every loop of removals is `removeEach`, which removes a first part of its items and reports each
(`removeEach_steps`).  From it: a shared cache is removed only by its name and under `--scope
shared`, a project clean removes only the project's own, and a failure ends it
(`clean_stays_in_scope`).  A directory is removed by its name as text, and so a symbolic link beside
it is, exactly in `Collides`. -/

namespace Ratect

open Paths (Path)

/-! ### Storage -/

/-- Part of a file name: a character, or bytes that are none. -/
inductive OsPiece where
  | char (c : Char)
  | invalid (bytes : List UInt8)
deriving DecidableEq, Repr

/-- `OsString`, as the name of a directory entry. -/
abbrev OsName := List OsPiece

namespace OsName

/-- `to_string_lossy`: bytes that are no character become U+FFFD. -/
def toStringLossy (name : OsName) : Text :=
  name.map fun
    | .char c => c
    | .invalid _ => '\uFFFD'

/-- The file name that a text is. -/
def ofText (text : Text) : OsName := text.map .char

end OsName

/-- `FileType`, of the entry itself. -/
inductive FileType where
  | directory
  | symlink
  | other
deriving DecidableEq, Repr

/-- An entry of a directory. -/
structure DirEntry where
  name : OsName
  fileType : Except String FileType

/-- What a clean removes. -/
inductive StorageRemoval where
  | volume (name : Text)
  | directory (root : Path) (name : OsName)
deriving DecidableEq

/-- What Docker and the file system answer: the volumes, the entries of a directory if it is one,
and how a removal ends, after those that were done. -/
structure Storage where
  listVolumes : Except String (List Text)
  readDir : Path → Option (Except String (List (Except String DirEntry)))
  remove : List StorageRemoval → StorageRemoval → Except String Unit

/-! ### What a clean reports -/

/-- `RemovedCache`. -/
structure RemovedCache where
  name : Text
  storage : Text
deriving DecidableEq, Repr

/-- What a clean does, in order: it reports (`CleanEvent`), and it attempts a removal. -/
inductive CleanStep where
  | removing (cache : RemovedCache)
  | attempted (removal : StorageRemoval) (done : Bool)
  | removed (cache : RemovedCache)
  | warning (message : String)
deriving DecidableEq

/-- The steps of a clean and how it ends. -/
structure Clean where
  steps : List CleanStep
  result : Except String (List RemovedCache)

/-- The loop of removals: in order, up to the first that fails. -/
def removeEach {α : Type} (cache : α → RemovedCache) (removal : α → StorageRemoval)
    (remove : List StorageRemoval → α → Except String Unit) : List α → List α → Clean
  | done, [] => ⟨[], .ok (done.map cache)⟩
  | done, item :: items =>
      match remove (done.map removal) item with
      | .error e => ⟨[.removing (cache item), .attempted (removal item) false], .error e⟩
      | .ok () =>
          let rest := removeEach cache removal remove (done ++ [item]) items
          ⟨[.removing (cache item), .attempted (removal item) true,
            .removed (cache item)] ++ rest.steps,
            rest.result⟩

/-! ### Volumes -/

/-- `strip_prefix`. -/
def stripPrefix (start : Text) (t : Text) : Option Text :=
  if start.isPrefixOf t then some (t.drop start.length) else none

/-- The set selects the name. -/
def selects (only : List Text) (name : Text) : Bool := only.isEmpty || decide (name ∈ only)

/-- `matching_cache_volumes`. -/
def matchingCacheVolumes (existing : List Text) (start : Text) (only : List Text) : List Text :=
  existing.filter fun name => (stripPrefix start name).any (selects only)

/-- `matching_shared_cache_volumes`. -/
def matchingSharedCacheVolumes (existing : List Text) (only : List Text) : List Text :=
  if only.isEmpty then [] else matchingCacheVolumes existing (sharedCacheVolumeName []) only

/-- `remove_cache_volumes`. -/
def removeCacheVolumes (storage : Storage) (volumes : List Text) (start : Text) : Clean :=
  removeEach (fun volume => ⟨(stripPrefix start volume).getD volume, volume⟩) .volume
    (fun done volume => storage.remove done (.volume volume)) [] volumes

/-- `clean_volume_caches`. -/
def cleanVolumeCaches (storage : Storage) (projectCacheKey : Text) (only : List Text) : Clean :=
  match storage.listVolumes with
  | .error e => ⟨[], .error e⟩
  | .ok existing =>
      let start := cacheVolumeName projectCacheKey []
      removeCacheVolumes storage (matchingCacheVolumes existing start only) start

/-- `clean_shared_volume_caches`. -/
def cleanSharedVolumeCaches (storage : Storage) (only : List Text) : Clean :=
  match storage.listVolumes with
  | .error e => ⟨[], .error e⟩
  | .ok existing =>
      removeCacheVolumes storage (matchingSharedCacheVolumes existing only)
        (sharedCacheVolumeName [])

/-! ### Directories -/

/-- Texts in order. -/
def sortTexts (texts : List Text) : List Text := texts.mergeSort fun a b => decide (a ≤ b)

/-- `CacheDirectoryScan`; a link that was passed over is kept by its name. -/
structure CacheDirectoryScan where
  matched : List Text
  skippedLinks : List OsName

/-- The loop over the entries of a cache directory. -/
def scanEntries (cacheDir : Path) (only : List Text) :
    CacheDirectoryScan → List (Except String DirEntry) → Except String CacheDirectoryScan
  | found, [] => .ok found
  | found, entry :: entries =>
      match entry with
      | .error e => .error s!"Failed to read an entry in {debugPath cacheDir}: {e}"
      | .ok entry =>
          let name := entry.name.toStringLossy
          if !selects only name then scanEntries cacheDir only found entries
          else
            match entry.fileType with
            | .error e =>
                .error s!"Failed to inspect {debugPath (Paths.join cacheDir (Paths.ofText name))}: {e}"
            | .ok .symlink =>
                scanEntries cacheDir only { found with
                  skippedLinks := found.skippedLinks ++ [entry.name] } entries
            | .ok .directory =>
                scanEntries cacheDir only { found with matched := found.matched ++ [name] } entries
            | .ok .other => scanEntries cacheDir only found entries

/-- `scan_cache_directories`. -/
def scanCacheDirectories (storage : Storage) (cacheDir : Path) (only : List Text) :
    Except String (Option CacheDirectoryScan) :=
  match storage.readDir cacheDir with
  | none => .ok none
  | some (.error e) => .error s!"Failed to read {debugPath cacheDir}: {e}"
  | some (.ok entries) => do
      let found ← scanEntries cacheDir only ⟨[], []⟩ entries
      return some { found with matched := sortTexts found.matched }

/-- `matching_cache_directories`. -/
def matchingCacheDirectories (storage : Storage) (cacheDir : Path) (only : List Text) :
    Except String (List Text) := do
  let found ← scanCacheDirectories storage cacheDir only
  return (found.map CacheDirectoryScan.matched).getD []

/-- `remove_cache_directories`: each by its name as text. -/
def removeCacheDirectories (storage : Storage) (root : Path) (names : List Text) : Clean :=
  removeEach (fun name => ⟨name, Paths.toText (Paths.join root (Paths.ofText name))⟩)
    (fun name => .directory root (OsName.ofText name))
    (fun done name => Except.withContext
      s!"Failed to remove {debugPath (Paths.join root (Paths.ofText name))}"
      (storage.remove done (.directory root (OsName.ofText name)))) [] names

/-- The warning about a link. -/
def skippedLink (cacheDir : Path) (link : Text) : String :=
  let shown := String.ofList (Paths.toText (Paths.join cacheDir (Paths.ofText link)))
  s!"Skipped '{shown}': it is a symbolic link, and a cache clean never follows one."

/-- `clean_directory_caches`. -/
def cleanDirectoryCaches (storage : Storage) (projectDirectory : Path) (only : List Text) : Clean :=
  let cacheDir := cacheDirectory projectDirectory
  match scanCacheDirectories storage cacheDir only with
  | .error e => ⟨[], .error e⟩
  | .ok none =>
      ⟨[.warning (s!"There is no cache directory at '{String.ofList (Paths.toText cacheDir)}', so there is " ++
        "nothing to remove.")], .ok []⟩
  | .ok (some found) =>
      let clean := removeCacheDirectories storage cacheDir found.matched
      let links := sortTexts (found.skippedLinks.map OsName.toStringLossy)
      ⟨links.map (fun link => .warning (skippedLink cacheDir link)) ++ clean.steps, clean.result⟩

/-- `clean_shared_directory_caches`. -/
def cleanSharedDirectoryCaches (storage : Storage) (root : Path) (only : List Text) : Clean :=
  if only.isEmpty then ⟨[], .ok []⟩
  else
    match matchingCacheDirectories storage root only with
    | .error e => ⟨[], .error e⟩
    | .ok names => removeCacheDirectories storage root names

/-! ### The store -/

/-- `CacheSelection`. -/
structure CacheSelection where
  owned : List Text
  shared : List Text
  scope : Option Config.CacheScope

/-- `shared_only`. -/
def CacheSelection.sharedOnly (found : CacheSelection) (wanted : List Text) : List Text :=
  sortTexts (found.shared.filter (· ∈ wanted))

/-- `CacheRefusal`. -/
inductive CacheRefusal where
  | sharedNotNamed (name : Text)
  | sharedSweepNotNamed
deriving DecidableEq, Repr

/-- `CacheStore`; the project's cache key is read at most once. -/
inductive CacheStore where
  | volume (projectCacheKey : Except String Text)
  | directory (projectDirectory : Path) (sharedRoot : Option Path)

/-- `CacheStore::new`, with the user's home for the shared caches. -/
def CacheStore.new (cacheType : CacheType) (projectDirectory : Path)
    (projectCacheKey : Except String Text) (home : Option Path) : CacheStore :=
  match cacheType with
  | .volume => .volume projectCacheKey
  | .directory => .directory projectDirectory (home.map sharedCacheRoot)

/-- `list_all_volume_caches`: the names, by the scope that each volume's name implies. -/
def listAllVolumeCaches (storage : Storage) (projectCacheKey : Option Text) :
    Except String (List (Text × Config.CacheScope)) := do
  let existing ← storage.listVolumes
  return existing.filterMap fun volume =>
    match projectCacheKey.bind fun key => stripPrefix (cacheVolumeName key []) volume with
    | some name => some (name, .project)
    | none => (stripPrefix (sharedCacheVolumeName []) volume).map fun name => (name, .shared)

/-- The names of one scope. -/
def cachesOf (scope : Config.CacheScope) (found : List (Text × Config.CacheScope)) : List Text :=
  (found.filter fun e => e.2 = scope).map Prod.fst

namespace CacheStore

/-- The caches that the storage holds, before the scope narrows them. -/
def listed (store : CacheStore) (storage : Storage) (scope : Option Config.CacheScope) :
    Except String (List Text × List Text) :=
  match store with
  | volume projectCacheKey => do
      let key ← if scope = some .shared then .ok none else projectCacheKey.map some
      let found ← listAllVolumeCaches storage key
      return (cachesOf .project found, cachesOf .shared found)
  | directory projectDirectory sharedRoot => do
      let owned ← matchingCacheDirectories storage (cacheDirectory projectDirectory) []
      let shared ← match sharedRoot with
        | some root => matchingCacheDirectories storage root []
        | none => .ok []
      return (owned, shared)

/-- `list`. -/
def list (store : CacheStore) (storage : Storage) (scope : Option Config.CacheScope) :
    Except String CacheSelection := do
  let (owned, shared) ← store.listed storage scope
  return { owned := if scope = some .shared then [] else sortTexts owned
           shared := if scope = some .project then [] else sortTexts shared
           scope := scope }

/-- `remove_project`. -/
def removeProject (store : CacheStore) (storage : Storage) (only : List Text) : Clean :=
  match store with
  | volume projectCacheKey =>
      match projectCacheKey with
      | .error e => ⟨[], .error e⟩
      | .ok key => cleanVolumeCaches storage key only
  | directory projectDirectory _ => cleanDirectoryCaches storage projectDirectory only

/-- `remove_shared`. -/
def removeShared (store : CacheStore) (storage : Storage) (only : List Text) : Clean :=
  match store with
  | volume _ => cleanSharedVolumeCaches storage only
  | directory _ sharedRoot =>
      match sharedRoot with
      | some root => cleanSharedDirectoryCaches storage root only
      | none => ⟨[], .ok []⟩

/-- Why a removal is refused, if it is. -/
def refusal (found : CacheSelection) (only : List Text) : Option CacheRefusal :=
  if only.isEmpty ∧ found.scope = some .shared then some .sharedSweepNotNamed
  else if found.scope ≠ some .shared then (found.sharedOnly only).head?.map .sharedNotNamed
  else none

/-- `remove`: the clean, or why it is refused. -/
def remove (store : CacheStore) (storage : Storage) (found : CacheSelection) (only : List Text) :
    CacheRefusal ⊕ Clean :=
  match refusal found only with
  | some refusal => .inl refusal
  | none => .inr (if found.scope = some .shared then store.removeShared storage only
      else store.removeProject storage only)

end CacheStore

/-! ### What the loop of removals leaves behind -/

/-- What is reported of a removal, where the volumes' names have the start. -/
def StorageRemoval.reported (start : Text) : StorageRemoval → RemovedCache
  | volume name => ⟨(stripPrefix start name).getD name, name⟩
  | directory root name =>
      ⟨name.toStringLossy, Paths.toText (Paths.join root (Paths.ofText name.toStringLossy))⟩

theorem OsName.toStringLossy_ofText (text : Text) : (OsName.ofText text).toStringLossy = text := by
  unfold OsName.toStringLossy OsName.ofText
  rw [List.map_map]
  exact List.map_id text

namespace Clean

/-- The removal was attempted. -/
def Attempts (clean : Clean) (removal : StorageRemoval) : Prop :=
  ∃ done, .attempted removal done ∈ clean.steps

/-- The removal was attempted and done. -/
def Removes (clean : Clean) (removal : StorageRemoval) : Prop :=
  .attempted removal true ∈ clean.steps

instance (clean : Clean) (removal : StorageRemoval) : Decidable (clean.Removes removal) :=
  inferInstanceAs (Decidable (_ ∈ _))

/-- The steps of a removal that was done. -/
def doneSteps (report : StorageRemoval → RemovedCache)
    (removal : StorageRemoval) : List CleanStep :=
  [.removing (report removal), .attempted removal true, .removed (report removal)]

/-- The steps of one that failed. -/
def failedSteps (report : StorageRemoval → RemovedCache)
    (removal : StorageRemoval) : List CleanStep :=
  [.removing (report removal), .attempted removal false]

/-- After the warnings each removal was announced, done and reported as done, up to the first that
failed; that one was announced only, and the clean ended with its error.  Otherwise it returns what
was done. -/
def Orderly (report : StorageRemoval → RemovedCache) (clean : Clean) : Prop :=
  ∃ (warnings : List String) (done : List StorageRemoval) (failed : Option StorageRemoval),
    clean.steps = warnings.map .warning ++ done.flatMap (doneSteps report) ++
        failed.toList.flatMap (failedSteps report) ∧
      (failed.isSome = true → clean.result.isOk = false) ∧
      ∀ removed, clean.result = .ok removed → removed = done.map report

end Clean

section removing

variable {α : Type} {cache : α → RemovedCache} {removal : α → StorageRemoval}
  {remove : List StorageRemoval → α → Except String Unit} {done : List α}

/-- The items are removed one after the other, after those that were done. -/
def AllRemoved (removal : α → StorageRemoval)
    (remove : List StorageRemoval → α → Except String Unit) :
    List α → List α → Prop
  | _, [] => True
  | done, item :: items =>
      remove (done.map removal) item = .ok () ∧ AllRemoved removal remove (done ++ [item]) items

/-- The loop removes a first part of the items, and ends after it or at a failure. -/
theorem removeEach_steps {report : StorageRemoval → RemovedCache}
    (hreport : ∀ a, cache a = report (removal a)) (done items : List α) :
    ∃ (now : List α) (failed : Option α) (rest : List α),
      items = now ++ (Option.toList failed ++ rest) ∧
      AllRemoved removal remove done now ∧
      (removeEach cache removal remove done items).steps =
        now.flatMap (fun a => Clean.doneSteps report (removal a)) ++
          (Option.toList failed).flatMap (fun a => Clean.failedSteps report (removal a)) ∧
      (failed = none → rest = [] ∧
        (removeEach cache removal remove done items).result = .ok ((done ++ now).map cache)) ∧
      (failed ≠ none → ∃ e, (removeEach cache removal remove done items).result = .error e) := by
  induction items generalizing done with
  | nil =>
      refine ⟨[], none, [], rfl, trivial, rfl, fun _ => ⟨rfl, ?_⟩, fun h => absurd rfl h⟩
      rw [List.append_nil]
      rfl
  | cons item items ih =>
      unfold removeEach
      cases hremove : remove (done.map removal) item with
      | error e =>
          refine ⟨[], some item, items, rfl, trivial, ?_, ?_, fun _ => ⟨e, rfl⟩⟩
          · simp [Clean.failedSteps, hreport]
          · intro hnone
            cases hnone
      | ok u =>
          obtain ⟨now, failed, rest, hitems, hremoved, hsteps, hall, hfailed⟩ := ih (done ++ [item])
          refine ⟨item :: now, failed, rest, by
            rw [hitems, List.cons_append], ⟨hremove, hremoved⟩, ?_, ?_,
            hfailed⟩
          · dsimp only
            rw [hsteps, List.flatMap_cons, List.append_assoc]
            simp [Clean.doneSteps, hreport]
          · intro hnone
            obtain ⟨hrest, hresult⟩ := hall hnone
            refine ⟨hrest, ?_⟩
            dsimp only
            rw [hresult, List.append_assoc]
            rfl

theorem removeEach_orderly {report : StorageRemoval → RemovedCache}
    (hreport : ∀ a, cache a = report (removal a)) (items : List α) :
    (removeEach cache removal remove [] items).Orderly report := by
  obtain ⟨now, failed, rest, -, -, hsteps, hall, hfailed⟩ :=
    removeEach_steps hreport [] items
  refine ⟨[], now.map removal, failed.map removal, ?_, ?_, ?_⟩
  · rw [hsteps]
    cases failed with
    | none => simp [List.flatMap_map]
    | some a => simp [List.flatMap_map]
  · intro hsome
    obtain ⟨e, he⟩ := hfailed (by rintro rfl; cases hsome)
    rw [he]
    rfl
  · intro removed hremoved
    cases failed with
    | none =>
        rw [(hall rfl).2, List.nil_append] at hremoved
        rw [← Except.ok.inj hremoved, List.map_map]
        exact List.map_congr_left fun a _ => hreport a
    | some a =>
        obtain ⟨e, he⟩ := hfailed (by simp)
        rw [he] at hremoved
        cases hremoved

/-- Only what was asked for is attempted. -/
theorem removeEach_attempts {items : List α} {r : StorageRemoval}
    (h : (removeEach cache removal remove done items).Attempts r) : ∃ a ∈ items, r = removal a := by
  induction items generalizing done with
  | nil =>
      obtain ⟨_, h⟩ := h
      cases h
  | cons item items ih =>
      unfold removeEach at h
      obtain ⟨ended, h⟩ := h
      cases hremove : remove (done.map removal) item with
      | error e =>
          rw [hremove] at h
          simp only [List.mem_cons, reduceCtorEq, CleanStep.attempted.injEq,
            List.not_mem_nil, or_false, false_or] at h
          exact ⟨item, List.mem_cons_self, h.1⟩
      | ok u =>
          rw [hremove] at h
          rcases List.mem_append.mp h with h | h
          · simp only [List.mem_cons, reduceCtorEq, CleanStep.attempted.injEq,
              List.not_mem_nil, or_false, false_or] at h
            exact ⟨item, List.mem_cons_self, h.1⟩
          · obtain ⟨a, ha, hr⟩ := ih ⟨ended, h⟩
            exact ⟨a, List.mem_cons_of_mem _ ha, hr⟩

/-- A removal that is done comes after removals that were done. -/
theorem removeEach_removes {items : List α} {r : StorageRemoval}
    (h : (removeEach cache removal remove done items).Removes r) :
    ∃ before item after, items = before ++ item :: after ∧ r = removal item ∧
      AllRemoved removal remove done (before ++ [item]) := by
  induction items generalizing done with
  | nil => cases h
  | cons item items ih =>
      unfold removeEach Clean.Removes at h
      cases hremove : remove (done.map removal) item with
      | error e =>
          rw [hremove] at h
          simp at h
      | ok u =>
          rw [hremove] at h
          rcases List.mem_append.mp h with h | h
          · simp only [List.mem_cons, reduceCtorEq, CleanStep.attempted.injEq,
              List.not_mem_nil, or_false, false_or, and_true] at h
            exact ⟨[], item, items, rfl, h, hremove, trivial⟩
          · obtain ⟨before, later, after, rfl, hr, hremoved⟩ := ih h
            exact ⟨item :: before, later, after, rfl, hr, hremove, hremoved⟩

/-- And where these are done, it is. -/
theorem removes_of_allRemoved {now : List α} (h : AllRemoved removal remove done now) {item : α}
    (hitem : item ∈ now) (rest : List α) :
    (removeEach cache removal remove done (now ++ rest)).Removes (removal item) := by
  induction now generalizing done with
  | nil => cases hitem
  | cons first now ih =>
      obtain ⟨hremove, hremoved⟩ := h
      rw [List.cons_append]
      unfold removeEach Clean.Removes
      rw [hremove]
      rcases List.mem_cons.mp hitem with rfl | hitem
      · exact List.mem_append_left _ (by simp)
      · exact List.mem_append_right _ (ih hremoved hitem)

end removing

theorem stripPrefix_eq_some {start t rest : Text} :
    stripPrefix start t = some rest ↔ t = start ++ rest := by
  unfold stripPrefix
  by_cases h : start.isPrefixOf t = true
  · rw [if_pos h, Option.some.injEq]
    obtain ⟨r, rfl⟩ := List.isPrefixOf_iff_prefix.mp h
    rw [List.drop_left, List.append_cancel_left_eq]
  · rw [if_neg h]
    constructor
    · exact fun h => by cases h
    · rintro rfl
      exact absurd (List.isPrefixOf_iff_prefix.mpr (List.prefix_append _ _)) h

theorem selects_iff {only : List Text} {name : Text} :
    selects only name = true ↔ only = [] ∨ name ∈ only := by
  unfold selects
  rw [Bool.or_eq_true, List.isEmpty_iff, decide_eq_true_eq]

theorem mem_matchingCacheVolumes {existing : List Text} {start : Text} {only : List Text}
    {volume : Text} :
    volume ∈ matchingCacheVolumes existing start only ↔
      volume ∈ existing ∧ ∃ name, volume = start ++ name ∧ (only = [] ∨ name ∈ only) := by
  unfold matchingCacheVolumes
  rw [List.mem_filter, Option.any_eq_true]
  simp only [stripPrefix_eq_some, selects_iff]

/-! ### What a scan finds -/

/-- An entry of a directory that a clean would remove. -/
def Selected (only : List Text) (entries : List (Except String DirEntry))
    (entry : DirEntry) : Prop :=
  .ok entry ∈ entries ∧ entry.fileType = .ok .directory ∧
    selects only entry.name.toStringLossy = true

theorem scanEntries_matched {cacheDir : Path} {only : List Text}
    {entries : List (Except String DirEntry)} {found found' : CacheDirectoryScan}
    (h : scanEntries cacheDir only found entries = .ok found') (name : Text) :
    name ∈ found'.matched ↔
      name ∈ found.matched ∨
        ∃ entry, Selected only entries entry ∧ entry.name.toStringLossy = name := by
  induction entries generalizing found with
  | nil =>
      cases h
      simp [Selected]
  | cons entry entries ih =>
      unfold scanEntries at h
      cases entry with
      | error e => cases h
      | ok entry =>
          -- The first entry adds its name exactly if it is selected.
          have hcons : (∃ e, Selected only (.ok entry :: entries) e ∧ e.name.toStringLossy = name) ↔
              (entry.fileType = .ok .directory ∧ selects only entry.name.toStringLossy = true ∧
                entry.name.toStringLossy = name) ∨
              ∃ e, Selected only entries e ∧ e.name.toStringLossy = name := by
            unfold Selected
            constructor
            · rintro ⟨e, ⟨he, hdir, hselected⟩, hname⟩
              rcases List.mem_cons.mp he with he | he
              · cases he
                exact Or.inl ⟨hdir, hselected, hname⟩
              · exact Or.inr ⟨e, ⟨he, hdir, hselected⟩, hname⟩
            · rintro (⟨hdir, hselected, hname⟩ | ⟨e, ⟨he, hdir, hselected⟩, hname⟩)
              · exact ⟨entry, ⟨List.mem_cons_self, hdir, hselected⟩, hname⟩
              · exact ⟨e, ⟨List.mem_cons_of_mem _ he, hdir, hselected⟩, hname⟩
          rw [hcons]
          dsimp only at h
          split at h
          · next hskip =>
              rw [ih h]
              have hno : selects only entry.name.toStringLossy ≠ true := by simpa using hskip
              simp [hno]
          · next hkeep =>
              have hselected : selects only entry.name.toStringLossy = true := by simpa using hkeep
              cases htype : entry.fileType with
              | error e =>
                  rw [htype] at h
                  cases h
              | ok fileType =>
                  rw [htype] at h
                  cases fileType with
                  | symlink =>
                      rw [ih h]
                      simp
                  | other =>
                      rw [ih h]
                      simp
                  | directory =>
                      rw [ih h]
                      simp only [List.mem_append, List.mem_singleton, hselected, true_and, or_assoc]
                      rw [eq_comm]

theorem mem_sortTexts {texts : List Text} {t : Text} : t ∈ sortTexts texts ↔ t ∈ texts :=
  List.mem_mergeSort

/-- What a directory clean would remove. -/
theorem scanCacheDirectories_matched {storage : Storage} {cacheDir : Path} {only : List Text}
    {found : CacheDirectoryScan}
    (h : scanCacheDirectories storage cacheDir only = .ok (some found)) :
    ∃ entries, storage.readDir cacheDir = some (.ok entries) ∧
      ∀ name, name ∈ found.matched ↔
        ∃ entry, Selected only entries entry ∧ entry.name.toStringLossy = name := by
  unfold scanCacheDirectories at h
  split at h
  · cases h
  · cases h
  · next entries hentries =>
      obtain ⟨scan, hscan, h⟩ := Except.bind_eq_ok.mp h
      cases h
      refine ⟨entries, hentries, fun name => ?_⟩
      rw [mem_sortTexts, scanEntries_matched hscan]
      simp

/-! ### What a clean removes -/

/-- The name of a project's cache volume begins with the project's own start. -/
theorem cacheVolumeName_append (key name : Text) :
    cacheVolumeName key [] ++ name = cacheVolumeName key name := by
  unfold cacheVolumeName
  simp

theorem sharedCacheVolumeName_append (name : Text) :
    sharedCacheVolumeName [] ++ name = sharedCacheVolumeName name := by
  unfold sharedCacheVolumeName
  simp

/-- No volume is a project's and shared. -/
theorem not_shared_cacheVolumeName (key name : Text) :
    ¬ sharedCacheVolumeName [] <+: cacheVolumeName key name := by
  unfold sharedCacheVolumeName cacheVolumeName
  rintro ⟨rest, h⟩
  have hhead := congrArg List.head? h
  cases hhead

/-- The name of the directory of the shared caches' root. -/
def ratectDirectory : Paths.Name := ⟨".ratect".toList, by decide⟩

theorem join_name_ne {p q : Path} {m n c : Paths.Name} (h : m ≠ n) :
    Paths.join (Paths.join p [.normal m]) [.normal c] ≠
      Paths.join (Paths.join q [.normal n]) [.normal c] := by
  have hjoin : ∀ (base : Path) (k : Paths.Name), ∃ start,
      Paths.join base [.normal k] = start ++ [.normal k] := by
    intro base k
    cases base with
    | nil => exact ⟨[], rfl⟩
    | cons x base => exact ⟨x :: base, rfl⟩
  obtain ⟨a, ha⟩ := hjoin p m
  obtain ⟨b, hb⟩ := hjoin q n
  obtain ⟨a', ha'⟩ := hjoin (a ++ [.normal m]) c
  have hjoin' : ∀ (start : Path) (k : Paths.Name),
      Paths.join (start ++ [.normal k]) [.normal c] = start ++ [.normal k] ++ [.normal c] := by
    intro start k
    cases start with
    | nil => rfl
    | cons x start => rfl
  rw [ha, hb, hjoin', hjoin']
  intro heq
  have hinit := (List.append_inj' heq rfl).1
  have hlast := (List.append_inj' hinit rfl).2
  rw [List.cons.injEq] at hlast
  exact h (Paths.Component.normal.inj hlast.1)

/-- A project's cache directory is not the root of the shared ones. -/
theorem cacheDirectory_ne (projectDirectory home : Path) :
    cacheDirectory projectDirectory ≠ sharedCacheRoot home := by
  unfold cacheDirectory sharedCacheRoot
  rw [show ".batect".toList = batectDirectory.text from rfl,
    show "caches".toList = cachesDirectory.text from rfl,
      show ".ratect".toList = ratectDirectory.text from rfl, Paths.ofText_name,
        Paths.ofText_name, Paths.ofText_name]
  exact join_name_ne (by decide)

/-- A directory has an entry of that name and type. -/
def Storage.Has (storage : Storage) (root : Path) (name : OsName) (fileType : FileType) : Prop :=
  ∃ entries entry,
    storage.readDir root = some (.ok entries) ∧ .ok entry ∈ entries ∧ entry.name = name ∧
    entry.fileType = .ok fileType

/-- The entry is one that `remove_dir_all` can remove: a directory, or a symbolic link, which goes
by itself. -/
def Storage.Removable (storage : Storage) (root : Path) (name : OsName) : Prop :=
  storage.Has root name .directory ∨ storage.Has root name .symlink

/-- `remove_dir_all` removes what is there, and nothing twice. -/
def Storage.RemovesWhatIsThere (storage : Storage) : Prop :=
  ∀ done root name, storage.remove done (.directory root name) = .ok () →
    storage.Removable root name ∧ .directory root name ∉ done

/-- The same storage, with removals that end in another way. -/
def Storage.withOutcomes (storage : Storage)
    (remove : List StorageRemoval → StorageRemoval → Except String Unit) : Storage :=
  { storage with remove := remove }

/-- Some storage removes everything that is there. -/
theorem Storage.exists_outcomes (storage : Storage) :
    ∃ outcomes, (storage.withOutcomes outcomes).RemovesWhatIsThere ∧
      ∀ done root name, storage.Removable root name → .directory root name ∉ done →
        outcomes done (.directory root name) = .ok () := by
  classical
  refine ⟨fun done removal =>
    if ∃ root name, removal = .directory root name ∧
        storage.Removable root name ∧ removal ∉ done then .ok () else .error "", ?_, ?_⟩
  · intro done root name h
    dsimp only [withOutcomes] at h
    split at h
    · next hthere =>
        obtain ⟨_, _, heq, hremovable, hdone⟩ := hthere
        cases heq
        exact ⟨hremovable, hdone⟩
    · cases h
  · intro done root name hremovable hdone
    exact if_pos ⟨root, name, rfl, hremovable, hdone⟩

section directories

variable {storage : Storage} {root : Path} {done names : List Text}

/-- Directories that are removed one after the other are there, each once. -/
theorem removable_of_allRemoved (hthere : storage.RemovesWhatIsThere)
    {remove : List StorageRemoval → Text → Except String Unit}
    (hremove : ∀ done name, remove done name = .ok () →
      storage.remove done (.directory root (OsName.ofText name)) = .ok ())
    (h : AllRemoved (fun name => .directory root (OsName.ofText name)) remove done names) :
    (∀ name ∈ names, storage.Removable root (OsName.ofText name)) ∧ names.Nodup ∧
      ∀ name ∈ names, name ∉ done := by
  induction names generalizing done with
  | nil => simp
  | cons name names ih =>
      obtain ⟨hname, hnames⟩ := h
      obtain ⟨hremovable, hnot⟩ := hthere _ _ _ (hremove _ _ hname)
      obtain ⟨hall, hnodup, hnew⟩ := ih hnames
      have hdone : name ∉ done := fun hin => hnot (List.mem_map_of_mem hin)
      refine ⟨List.forall_mem_cons.mpr ⟨hremovable, hall⟩,
        List.nodup_cons.mpr ⟨fun hin => hnew name hin (by simp), hnodup⟩,
        List.forall_mem_cons.mpr ⟨hdone, fun later hlater hin => ?_⟩⟩
      exact hnew later hlater (List.mem_append_left _ hin)

/-- And where what is there is removed, those that are there are, each once. -/
theorem allRemoved_of_removable {remove : List StorageRemoval → Text → Except String Unit}
    (hremove : ∀ done name, storage.Removable root (OsName.ofText name) →
      .directory root (OsName.ofText name) ∉ done → remove done name = .ok ())
    (hall : ∀ name ∈ names, storage.Removable root (OsName.ofText name)) (hnodup : names.Nodup)
    (hnew : ∀ name ∈ names, name ∉ done) :
    AllRemoved (fun name => .directory root (OsName.ofText name)) remove done names := by
  induction names generalizing done with
  | nil => trivial
  | cons name names ih =>
      obtain ⟨hfirst, hrest⟩ := List.nodup_cons.mp hnodup
      obtain ⟨hremovable, hall⟩ := List.forall_mem_cons.mp hall
      obtain ⟨hdone, hnew⟩ := List.forall_mem_cons.mp hnew
      refine ⟨hremove _ _ hremovable fun hin => ?_, ih hall hrest fun later hlater hin => ?_⟩
      · obtain ⟨other, hother, heq⟩ := List.mem_map.mp hin
        have hsame : other = name := by
          have := congrArg OsName.toStringLossy (StorageRemoval.directory.inj heq).2
          rwa [OsName.toStringLossy_ofText, OsName.toStringLossy_ofText] at this
        exact hdone (hsame ▸ hother)
      · rcases List.mem_append.mp hin with hin | hin
        · exact hnew later hlater hin
        · exact hfirst (List.mem_singleton.mp hin ▸ hlater)

end directories

namespace CacheStore

/-- The removal is of a shared cache. -/
def IsShared : CacheStore → StorageRemoval → Prop
  | volume _, .volume name => sharedCacheVolumeName [] <+: name
  | directory _ sharedRoot, .directory root _ => sharedRoot = some root
  | _, _ => False

/-- The removal is of a shared cache that is named. -/
def NamesShared (only : List Text) : CacheStore → StorageRemoval → Prop
  | volume _, removal => ∃ name ∈ only, removal = .volume (sharedCacheVolumeName name)
  | directory _ sharedRoot, removal =>
      ∃ root, sharedRoot = some root ∧ ∃ name ∈ only, removal = .directory root (OsName.ofText name)

/-- The removal is of a cache of the project: of a volume with the project's key and a selected
name, or of the directory with the name, as text, of a selected subdirectory of the project's cache
directory. -/
def Owns (storage : Storage) (only : List Text) : CacheStore → StorageRemoval → Prop
  | volume projectCacheKey, removal => ∃ key name, projectCacheKey = .ok key ∧
      removal = .volume (cacheVolumeName key name) ∧ (only = [] ∨ name ∈ only)
  | directory projectDirectory _, removal => ∃ entries entry,
      storage.readDir (cacheDirectory projectDirectory) = some (.ok entries) ∧
        Selected only entries entry ∧
        removal = .directory (cacheDirectory projectDirectory)
          (OsName.ofText entry.name.toStringLossy)

/-- What the names of a store's volumes start with. -/
def start (scope : Option Config.CacheScope) : CacheStore → Text
  | volume (.ok key) =>
      if scope = some .shared then sharedCacheVolumeName [] else cacheVolumeName key []
  | _ => sharedCacheVolumeName []

/-- What a clean may do. -/
structure StaysInScope (store : CacheStore) (storage : Storage) (scope : Option Config.CacheScope)
    (only : List Text) (clean : Clean) : Prop where
  shared : ∀ removal, clean.Attempts removal → store.IsShared removal →
    scope = some .shared ∧ store.NamesShared only removal
  own : scope ≠ some .shared → ∀ removal, clean.Attempts removal → store.Owns storage only removal
  subdirectories : scope ≠ some .shared → ∀ root name, clean.Removes (.directory root name) →
    storage.Has root name .directory ∧ ¬ storage.Has root name .symlink
  orderly : clean.Orderly (StorageRemoval.reported (store.start scope))

/-- Of the names, as text and in order, of the directories that a project clean would remove, one is
the name of a symbolic link, and each before it is the name of another directory or link that is
there. -/
def Collides (storage : Storage) (only : List Text) : CacheStore → Prop
  | volume _ => False
  | directory projectDirectory _ =>
      ∃ found before text after,
        scanCacheDirectories storage (cacheDirectory projectDirectory) only = .ok (some found) ∧
        found.matched = before ++ text :: after ∧
        storage.Has (cacheDirectory projectDirectory) (OsName.ofText text) .symlink ∧
        (∀ name ∈ before, storage.Removable (cacheDirectory projectDirectory)
          (OsName.ofText name)) ∧
        (before ++ [text]).Nodup

end CacheStore

/-- A clean that fails before it removes anything. -/
theorem orderly_error (report : StorageRemoval → RemovedCache) (e : String) :
    Clean.Orderly report ⟨[], .error e⟩ := by
  refine ⟨[], [], none, rfl, Bool.noConfusion, fun removed h => ?_⟩
  cases h

/-- A clean that finds nothing to remove. -/
theorem orderly_nothing (report : StorageRemoval → RemovedCache) (warnings : List String) :
    Clean.Orderly report ⟨warnings.map .warning, .ok []⟩ := by
  refine ⟨warnings, [], none, by simp, Bool.noConfusion, fun removed h => ?_⟩
  exact (Except.ok.inj h).symm

theorem not_attempts_nil {result : Except String (List RemovedCache)} {removal : StorageRemoval} :
    ¬ Clean.Attempts ⟨[], result⟩ removal := by
  rintro ⟨_, h⟩
  cases h

theorem attempts_of_removes {clean : Clean} {removal : StorageRemoval} (h : clean.Removes removal) :
    clean.Attempts removal := ⟨true, h⟩

section cleans

variable {storage : Storage} {only : List Text} {removal : StorageRemoval}

theorem cleanVolumeCaches_attempts {key : Text}
    (h : (cleanVolumeCaches storage key only).Attempts removal) :
    ∃ name, removal = .volume (cacheVolumeName key name) ∧ (only = [] ∨ name ∈ only) := by
  unfold cleanVolumeCaches at h
  split at h
  · exact absurd h not_attempts_nil
  · obtain ⟨volume, hvolume, rfl⟩ := removeEach_attempts h
    obtain ⟨-, name, rfl, hname⟩ := mem_matchingCacheVolumes.mp hvolume
    exact ⟨name, by rw [cacheVolumeName_append], hname⟩

theorem removeCacheVolumes_orderly (storage : Storage) (volumes : List Text) (start : Text) :
    (removeCacheVolumes storage volumes start).Orderly (StorageRemoval.reported start) := by
  unfold removeCacheVolumes
  refine removeEach_orderly ?_ volumes
  exact fun volume => rfl

theorem cleanVolumeCaches_orderly (storage : Storage) (key : Text) (only : List Text) :
    (cleanVolumeCaches storage key only).Orderly
      (StorageRemoval.reported (cacheVolumeName key [])) := by
  unfold cleanVolumeCaches
  split
  · exact orderly_error _ _
  · exact removeCacheVolumes_orderly _ _ _

theorem cleanSharedVolumeCaches_attempts
    (h : (cleanSharedVolumeCaches storage only).Attempts removal) :
    ∃ name ∈ only, removal = .volume (sharedCacheVolumeName name) := by
  unfold cleanSharedVolumeCaches at h
  split at h
  · exact absurd h not_attempts_nil
  · obtain ⟨volume, hvolume, rfl⟩ := removeEach_attempts h
    unfold matchingSharedCacheVolumes at hvolume
    split at hvolume
    · cases hvolume
    · next hsome =>
        obtain ⟨-, name, rfl, hname⟩ := mem_matchingCacheVolumes.mp hvolume
        rcases hname with rfl | hname
        · exact absurd rfl hsome
        · exact ⟨name, hname, by rw [sharedCacheVolumeName_append]⟩

theorem cleanSharedVolumeCaches_orderly (storage : Storage) (only : List Text) :
    (cleanSharedVolumeCaches storage only).Orderly
      (StorageRemoval.reported (sharedCacheVolumeName [])) := by
  unfold cleanSharedVolumeCaches
  split
  · exact orderly_error _ _
  · exact removeCacheVolumes_orderly _ _ _

/-- A clean of the project's directories attempts what the scan matched. -/
theorem cleanDirectoryCaches_attempts {projectDirectory : Path}
    (h : (cleanDirectoryCaches storage projectDirectory only).Attempts removal) :
    ∃ found, scanCacheDirectories storage (cacheDirectory projectDirectory)
      only = .ok (some found) ∧
      ∃ name ∈ found.matched,
        removal = .directory (cacheDirectory projectDirectory) (OsName.ofText name) := by
  unfold cleanDirectoryCaches at h
  dsimp only at h
  split at h
  · exact absurd h not_attempts_nil
  · obtain ⟨_, h⟩ := h
    rw [List.mem_singleton] at h
    cases h
  · next found hfound =>
      obtain ⟨done, h⟩ := h
      rcases List.mem_append.mp h with h | h
      · obtain ⟨_, -, h⟩ := List.mem_map.mp h
        cases h
      · obtain ⟨name, hname, rfl⟩ := removeEach_attempts ⟨done, h⟩
        exact ⟨found, hfound, name, hname, rfl⟩

/-- And what it removes comes after names that were removed. -/
theorem cleanDirectoryCaches_removes {projectDirectory : Path} (hthere : storage.RemovesWhatIsThere)
    (h : (cleanDirectoryCaches storage projectDirectory only).Removes removal) :
    ∃ found before text after,
      scanCacheDirectories storage (cacheDirectory projectDirectory) only = .ok (some found) ∧
      found.matched = before ++ text :: after ∧
      removal = .directory (cacheDirectory projectDirectory) (OsName.ofText text) ∧
      (∀ name ∈ before ++ [text],
        storage.Removable (cacheDirectory projectDirectory) (OsName.ofText name)) ∧
      (before ++ [text]).Nodup := by
  unfold cleanDirectoryCaches Clean.Removes at h
  dsimp only at h
  split at h
  · cases h
  · rw [List.mem_singleton] at h
    cases h
  · next found hfound =>
      rcases List.mem_append.mp h with h | h
      · obtain ⟨_, -, h⟩ := List.mem_map.mp h
        cases h
      · obtain ⟨before, text, after, hmatched, hremoval, hremoved⟩ := removeEach_removes h
        obtain ⟨hall, hnodup, -⟩ := removable_of_allRemoved hthere
          (fun _ _ hname => Except.withContext_eq_ok.mp hname) hremoved
        exact ⟨found, before, text, after, hfound, hmatched, hremoval, hall, hnodup⟩

/-- What is reported of a directory is that of the removal by its name as text. -/
theorem reported_directory (start : Text) (root : Path) (name : Text) :
    StorageRemoval.reported start (.directory root (OsName.ofText name)) =
      ⟨name, Paths.toText (Paths.join root (Paths.ofText name))⟩ := by
  simp only [StorageRemoval.reported, OsName.toStringLossy_ofText]

theorem removeCacheDirectories_orderly (start : Text) (storage : Storage) (root : Path)
    (names : List Text) :
    (removeCacheDirectories storage root names).Orderly (StorageRemoval.reported start) :=
  removeEach_orderly (fun name => (reported_directory start root name).symm) names

theorem cleanDirectoryCaches_orderly (start : Text) (storage : Storage) (projectDirectory : Path)
    (only : List Text) :
    (cleanDirectoryCaches storage projectDirectory only).Orderly
      (StorageRemoval.reported start) := by
  unfold cleanDirectoryCaches
  dsimp only
  split
  · exact orderly_error _ _
  · exact orderly_nothing _ [_]
  · next found _ =>
      obtain ⟨warnings, done, failed, hsteps, hfailed, hresult⟩ :=
        removeCacheDirectories_orderly start storage (cacheDirectory projectDirectory) found.matched
      refine ⟨(sortTexts (found.skippedLinks.map OsName.toStringLossy)).map
        (skippedLink (cacheDirectory projectDirectory)) ++ warnings, done, failed,
        ?_, hfailed, hresult⟩
      rw [hsteps, List.map_append, List.map_map]
      simp only [List.append_assoc]
      rfl

theorem cleanSharedDirectoryCaches_attempts {root : Path}
    (h : (cleanSharedDirectoryCaches storage root only).Attempts removal) :
    ∃ name ∈ only, removal = .directory root (OsName.ofText name) := by
  unfold cleanSharedDirectoryCaches at h
  split at h
  · exact absurd h not_attempts_nil
  · next hsome =>
      split at h
      · exact absurd h not_attempts_nil
      · next names hnames =>
          obtain ⟨name, hname, rfl⟩ := removeEach_attempts h
          refine ⟨name, ?_, rfl⟩
          obtain ⟨found, hfound, hmatched⟩ := Except.bind_eq_ok.mp hnames
          cases hmatched
          cases found with
          | none => cases hname
          | some found =>
              obtain ⟨entries, -, hmem⟩ := scanCacheDirectories_matched hfound
              obtain ⟨entry, ⟨-, -, hselected⟩, rfl⟩ := (hmem name).mp hname
              rcases selects_iff.mp hselected with rfl | hin
              · exact absurd rfl hsome
              · exact hin

theorem cleanSharedDirectoryCaches_orderly (start : Text) (storage : Storage) (root : Path)
    (only : List Text) :
    (cleanSharedDirectoryCaches storage root only).Orderly (StorageRemoval.reported start) := by
  unfold cleanSharedDirectoryCaches
  split
  · exact orderly_nothing _ []
  · split
    · exact orderly_error _ _
    · exact removeCacheDirectories_orderly _ _ _ _

end cleans

/-! ### Scope -/

namespace CacheStore

theorem list_scope {store : CacheStore} {storage : Storage} {scope : Option Config.CacheScope}
    {found : CacheSelection} (h : store.list storage scope = .ok found) : found.scope = scope := by
  obtain ⟨_, -, h⟩ := Except.bind_eq_ok.mp h
  cases h
  rfl

section scopes

variable {cacheType : CacheType} {projectDirectory : Path} {projectCacheKey : Except String Text}
  {home : Option Path} {storage : Storage} {only : List Text}

/-- How the removals end is no part of what the storage holds. -/
theorem StaysInScope.of_outcomes {store : CacheStore} {scope : Option Config.CacheScope}
    {clean : Clean} {outcomes : List StorageRemoval → StorageRemoval → Except String Unit}
    (h : store.StaysInScope (storage.withOutcomes outcomes) scope only clean) :
    store.StaysInScope storage scope only clean :=
  ⟨h.shared, by
    intro hscope removal hremoval
    have howns := h.own hscope removal hremoval
    cases store with
    | volume projectCacheKey => exact howns
    | directory projectDirectory sharedRoot => exact howns, h.subdirectories, h.orderly⟩

theorem Collides.of_outcomes {store : CacheStore}
    {outcomes : List StorageRemoval → StorageRemoval → Except String Unit} :
    store.Collides (storage.withOutcomes outcomes) only ↔ store.Collides storage only := by
  cases store with
  | volume projectCacheKey => exact Iff.rfl
  | directory projectDirectory sharedRoot => exact Iff.rfl

/-- A clean of the shared caches. -/
theorem staysInScope_shared :
    (new cacheType projectDirectory projectCacheKey home).StaysInScope storage (some .shared) only
      ((new cacheType projectDirectory projectCacheKey home).removeShared storage only) := by
  cases cacheType with
  | volume =>
      have hstart : (new .volume projectDirectory projectCacheKey home).start (some .shared) =
          sharedCacheVolumeName [] := by
        cases projectCacheKey with
        | error e => rfl
        | ok key => rfl
      refine ⟨fun removal h _ => ⟨rfl, cleanSharedVolumeCaches_attempts h⟩, fun h => absurd rfl h,
        fun h => absurd rfl h, ?_⟩
      rw [hstart]
      exact cleanSharedVolumeCaches_orderly _ _
  | directory =>
      cases home with
      | none =>
          exact ⟨fun removal h _ => absurd h not_attempts_nil, fun h => absurd rfl h,
            fun h => absurd rfl h,
            orderly_nothing _ []⟩
      | some home =>
          exact ⟨fun removal h _ => ⟨rfl, _, rfl, cleanSharedDirectoryCaches_attempts h⟩,
            fun h => absurd rfl h,
            fun h => absurd rfl h, cleanSharedDirectoryCaches_orderly _ _ _ _⟩

/-- A clean of the project's volumes. -/
theorem staysInScope_volumes {scope : Option Config.CacheScope} (hscope : scope ≠ some .shared) :
    (volume projectCacheKey).StaysInScope storage scope only
      ((volume projectCacheKey).removeProject storage only) := by
  cases projectCacheKey with
  | error e =>
      exact ⟨fun removal h _ => absurd h not_attempts_nil, fun _ removal h =>
        absurd h not_attempts_nil,
        fun _ root name h => absurd (attempts_of_removes h) not_attempts_nil, orderly_error _ _⟩
  | ok key =>
      have hstart : (volume (.ok key)).start scope = cacheVolumeName key [] := if_neg hscope
      refine ⟨?_, ?_, ?_, hstart ▸ cleanVolumeCaches_orderly storage key only⟩
      · intro removal h hshared
        obtain ⟨name, rfl, -⟩ := cleanVolumeCaches_attempts h
        exact absurd hshared (not_shared_cacheVolumeName key name)
      · intro _ removal h
        obtain ⟨name, hremoval, hname⟩ := cleanVolumeCaches_attempts h
        exact ⟨key, name, rfl, hremoval, hname⟩
      · intro _ root name h
        obtain ⟨_, h, -⟩ := cleanVolumeCaches_attempts (attempts_of_removes h)
        cases h

/-- A clean of the project's caches. -/
theorem staysInScope_project {scope : Option Config.CacheScope} (hscope : scope ≠ some .shared)
    (hthere : storage.RemovesWhatIsThere)
    (hcollides : ¬ (new cacheType projectDirectory projectCacheKey home).Collides storage only) :
    (new cacheType projectDirectory projectCacheKey home).StaysInScope storage scope only
      ((new cacheType projectDirectory projectCacheKey home).removeProject storage only) := by
  cases cacheType with
  | volume => exact staysInScope_volumes hscope
  | directory =>
      refine ⟨?_, ?_, ?_, cleanDirectoryCaches_orderly _ storage projectDirectory only⟩
      · intro removal h hshared
        obtain ⟨found, -, name, -, rfl⟩ := cleanDirectoryCaches_attempts h
        have hroot : home.map sharedCacheRoot = some (cacheDirectory projectDirectory) := hshared
        obtain ⟨dir, -, hdir⟩ := Option.map_eq_some_iff.mp hroot
        exact absurd hdir.symm (cacheDirectory_ne projectDirectory dir)
      · intro _ removal h
        obtain ⟨found, hfound, name, hname, rfl⟩ := cleanDirectoryCaches_attempts h
        obtain ⟨entries, hentries, hmem⟩ := scanCacheDirectories_matched hfound
        obtain ⟨entry, hselected, rfl⟩ := (hmem name).mp hname
        exact ⟨entries, entry, hentries, hselected, rfl⟩
      · intro _ root name h
        obtain ⟨found, before, text, after, hfound, hmatched, hremoval, hall, hnodup⟩ :=
          cleanDirectoryCaches_removes hthere h
        cases hremoval
        have hlink : ¬ storage.Has (cacheDirectory projectDirectory)
            (OsName.ofText text) .symlink :=
          fun hlink => hcollides ⟨found, before, text, after, hfound, hmatched, hlink,
            fun name hname => hall name (List.mem_append_left _ hname), hnodup⟩
        exact ⟨(hall text (by simp)).resolve_right hlink, hlink⟩

/-- Where names collide and everything that is there can be removed, a link is. -/
theorem removes_link {outcomes : List StorageRemoval → StorageRemoval → Except String Unit}
    (houtcomes : ∀ done root name, storage.Removable root name → .directory root name ∉ done →
      outcomes done (.directory root name) = .ok ())
    (hcollides : (new cacheType projectDirectory projectCacheKey home).Collides storage only) :
    ∃ root name, ((new cacheType projectDirectory projectCacheKey home).removeProject
      (storage.withOutcomes outcomes) only).Removes (.directory root name) ∧
        storage.Has root name .symlink := by
  cases cacheType with
  | volume => exact absurd hcollides id
  | directory =>
      obtain ⟨found, before, text, after, hfound, hmatched, hlink, hbefore, hnodup⟩ := hcollides
      refine ⟨_, _, ?_, hlink⟩
      have hfound' : scanCacheDirectories (storage.withOutcomes outcomes)
          (cacheDirectory projectDirectory) only =
          .ok (some found) := hfound
      simp only [new, removeProject, cleanDirectoryCaches, hfound']
      refine List.mem_append_right _ ?_
      unfold removeCacheDirectories
      rw [hmatched, ← List.singleton_append, ← List.append_assoc]
      refine removes_of_allRemoved (allRemoved_of_removable ?_
        (?_ : ∀ name ∈ before ++ [text],
          storage.Removable (cacheDirectory projectDirectory) (OsName.ofText name)) hnodup
            (by simp))
        (by simp) after
      · intro done name hremovable hdone
        exact Except.withContext_eq_ok.mpr (houtcomes _ _ _ hremovable hdone)
      · intro name hname
        rcases List.mem_append.mp hname with hname | hname
        · exact hbefore name hname
        · rw [List.mem_singleton.mp hname]
          exact .inr hlink

end scopes

/-- **A clean stays in its scope.**  Whatever the storage held when the caches were listed, whatever
it holds when they are removed and however each removal ends, as long as `remove_dir_all` removes
what is there: a shared cache is removed only under the scope `shared` and by its name; without that
scope only volumes with the project's key and a selected name are, or subdirectories of the
project's cache directory that are no symbolic links, by the name as text of a selected one; and
each removal is reported, up to the first that fails, which is the last — exactly if it is not the
case that a project clean of directories goes ahead and comes, in the order of the names as text, to
one that is the name of a symbolic link. -/
theorem clean_stays_in_scope (cacheType : CacheType) (projectDirectory : Path)
    (projectCacheKey : Except String Text) (home : Option Path) (before now : Storage)
    (scope : Option Config.CacheScope) (only : List Text) (found : CacheSelection)
    (hfound : (new cacheType projectDirectory projectCacheKey home).list before scope = .ok found) :
    (∀ outcomes clean, (now.withOutcomes outcomes).RemovesWhatIsThere →
      (new cacheType projectDirectory projectCacheKey home).remove
        (now.withOutcomes outcomes) found only =
          .inr clean →
        (new cacheType projectDirectory projectCacheKey home).StaysInScope now scope only clean) ↔
      ¬ (refusal found only = none ∧ scope ≠ some .shared ∧
        (new cacheType projectDirectory projectCacheKey home).Collides now only) := by
  have hscope := list_scope hfound
  constructor
  · rintro hstays ⟨hgoes, hproject, hcollides⟩
    obtain ⟨outcomes, hthere, houtcomes⟩ := now.exists_outcomes
    have hremove : (new cacheType projectDirectory projectCacheKey home).remove
        (now.withOutcomes outcomes)
        found only = .inr ((new cacheType projectDirectory projectCacheKey home).removeProject
          (now.withOutcomes outcomes) only) := by
      unfold remove
      rw [hgoes]
      dsimp only
      rw [hscope, if_neg hproject]
    obtain ⟨root, name, hremoves, hlink⟩ := removes_link houtcomes hcollides
    exact ((hstays outcomes _ hthere hremove).subdirectories hproject root name hremoves).2 hlink
  · intro hno outcomes clean hthere hclean
    unfold remove at hclean
    split at hclean
    · cases hclean
    · next hgoes =>
        rw [hscope] at hclean
        split at hclean
        · next hshared =>
            cases hclean
            rw [hshared]
            exact staysInScope_shared.of_outcomes
        · next hproject =>
            cases hclean
            refine (staysInScope_project hproject hthere fun h => ?_).of_outcomes
            exact hno ⟨hgoes, hproject, Collides.of_outcomes.mp h⟩

end CacheStore

/-- How `remove_dir_all` ends in a directory with these entries. -/
def removeEntry (cacheDir : Path) (entries : List DirEntry) (done : List StorageRemoval) :
    StorageRemoval → Except String Unit
  | .volume _ => .ok ()
  | .directory root name =>
      if root = cacheDir ∧ .directory root name ∉ done ∧ ∃ entry ∈ entries, entry.name = name ∧
        (entry.fileType = .ok .directory ∨ entry.fileType = .ok .symlink) then .ok ()
      else .error "No such file or directory (os error 2)"

/-- A storage with one directory of caches, and no volume, in which everything that is there can be
removed. -/
def directoryStorage (cacheDir : Path) (entries : List DirEntry) : Storage :=
  { listVolumes := .ok []
    readDir := fun path => if path = cacheDir then some (.ok (entries.map .ok)) else none
    remove := removeEntry cacheDir entries }

theorem directoryStorage_removesWhatIsThere (cacheDir : Path) (entries : List DirEntry) :
    (directoryStorage cacheDir entries).RemovesWhatIsThere := by
  intro done root name h
  dsimp only [directoryStorage, removeEntry] at h
  split at h
  · next hthere =>
      obtain ⟨rfl, hdone, entry, hentry, hname, htype⟩ := hthere
      have hread : (directoryStorage root entries).readDir root = some (.ok (entries.map .ok)) :=
        if_pos rfl
      refine ⟨htype.imp (fun htype => ?_) fun htype => ?_, hdone⟩
      · exact ⟨_, entry, hread, List.mem_map_of_mem hentry, hname, htype⟩
      · exact ⟨_, entry, hread, List.mem_map_of_mem hentry, hname, htype⟩
  · cases h

/-- The cache directory of a project in `/p`. -/
def exampleCaches : Path := cacheDirectory (Paths.ofText "/p".toList)

/-- A directory and a link whose names differ as text. -/
def plainCaches : Storage :=
  directoryStorage exampleCaches [⟨OsName.ofText "gradle".toList, .ok .directory⟩,
    ⟨OsName.ofText "linked".toList, .ok .symlink⟩]

/-- A directory whose name ends in a stray byte, and a link with the replacement character there. -/
def strayCaches : Storage :=
  directoryStorage exampleCaches [⟨[.char 'a', .invalid [0xff]], .ok .directory⟩,
    ⟨OsName.ofText ['a', '\uFFFD'], .ok .symlink⟩]

/-- A directory clean with no stray bytes about. -/
theorem clean_stays_in_scope_plain : ∃ found,
    (CacheStore.new .directory (Paths.ofText "/p".toList) (.ok []) none).list
      plainCaches none = .ok found ∧
      ∀ outcomes clean, (plainCaches.withOutcomes outcomes).RemovesWhatIsThere →
        (CacheStore.new .directory (Paths.ofText "/p".toList) (.ok []) none).remove
            (plainCaches.withOutcomes outcomes) found [] = .inr clean →
          (CacheStore.new .directory (Paths.ofText "/p".toList) (.ok []) none).StaysInScope
            plainCaches none []
            clean := by
  have hrun : ((CacheStore.new .directory (Paths.ofText "/p".toList) (.ok []) none).list
      plainCaches none).passes
      (fun found => decide (found.owned = ["gradle".toList])) = true := by
    decide +kernel
  obtain ⟨found, hfound, -⟩ := Except.exists_of_passes hrun
  refine ⟨found, hfound, ?_⟩
  apply (CacheStore.clean_stays_in_scope .directory _ _ _ _ plainCaches none [] found hfound).mpr
  rintro ⟨-, -, scan, before, text, after, hscan, hmatched,
    ⟨entries, link, hentries, hlink, hname, hsymlink⟩, -⟩
  have hboth : plainCaches.readDir (cacheDirectory (Paths.ofText "/p".toList)) =
      some (.ok [.ok ⟨OsName.ofText "gradle".toList, .ok .directory⟩,
        .ok ⟨OsName.ofText "linked".toList, .ok .symlink⟩]) := rfl
  obtain ⟨entries', hentries', hmem⟩ := scanCacheDirectories_matched hscan
  obtain ⟨entry, ⟨hentry, htype, -⟩, rfl⟩ := (hmem text).mp (by rw [hmatched]; simp)
  rw [hboth] at hentries hentries'
  cases hentries
  cases hentries'
  simp only [List.mem_cons, Except.ok.injEq, List.not_mem_nil, or_false] at hentry hlink
  rcases hentry with rfl | rfl
  · rcases hlink with rfl | rfl
    · cases hsymlink
    · revert hname
      decide +kernel
  · cases htype

/-- The clean takes the name of the directory as text, and so removes the link. -/
theorem clean_removes_link : ∃ found clean,
    (CacheStore.new .directory (Paths.ofText "/p".toList) (.ok []) none).list
      strayCaches none = .ok found ∧
      strayCaches.RemovesWhatIsThere ∧
      (CacheStore.new .directory (Paths.ofText "/p".toList) (.ok []) none).remove
        strayCaches found [] =
        .inr clean ∧
      clean.Removes (.directory exampleCaches (OsName.ofText ['a', '\uFFFD'])) ∧
      strayCaches.Has exampleCaches (OsName.ofText ['a', '\uFFFD']) .symlink := by
  have hrun : ((CacheStore.new .directory (Paths.ofText "/p".toList) (.ok []) none).list
      strayCaches none).passes
      (fun found => match (CacheStore.new .directory (Paths.ofText "/p".toList)
        (.ok []) none).remove strayCaches
          found [] with
        | .inl _ => false
        | .inr clean =>
            decide (clean.Removes (.directory exampleCaches (OsName.ofText ['a', '\uFFFD'])))) =
      true := by
    decide +kernel
  obtain ⟨found, hfound, htest⟩ := Except.exists_of_passes hrun
  split at htest
  · cases htest
  · next clean hclean =>
      refine ⟨found, clean, hfound, directoryStorage_removesWhatIsThere _ _, hclean,
        of_decide_eq_true htest, ?_⟩
      exact ⟨_, ⟨OsName.ofText ['a', '\uFFFD'], .ok .symlink⟩, rfl,
        List.mem_cons_of_mem _ List.mem_cons_self,
        rfl, rfl⟩

end Ratect
