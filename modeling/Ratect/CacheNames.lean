import Ratect.CacheStore

/-! # The names of cache storage

A cache volume is named by an unescaped join, `batect-cache-<key>-<name>`, and a project's volumes
are found again by their prefix.  Keys and names may both have hyphens, so that the join can be read
back rests on the shapes of the keys: one has no hyphen where a shorter key would end
(`cacheKey_isPrefix`).  A cache directory is named by joining, which for an accepted name is one
component more (`directChild_join`). -/

namespace Ratect

open Paths (Path)

/-! ### Keys -/

/-- A hexadecimal digit as a UUID is written. -/
def isLowerHex (c : Char) : Bool := c.isDigit || ('a' ≤ c && c ≤ 'f')

/-- A hyphenated lower-case UUID, such as `project_cache_key` generates. -/
def IsUuid (key : Text) : Prop :=
  key.length = 36 ∧
    ∀ i : Fin key.length, if i.val ∈ [8, 13, 18, 23] then key[i] = '-' else isLowerHex key[i] = true

instance (key : Text) : Decidable (IsUuid key) := inferInstanceAs (Decidable (_ ∧ _))

/-- The six characters that Batect generates. -/
def IsBatectKey (key : Text) : Prop :=
  key.length = 6 ∧ key.all (fun c => c.isDigit || c.isLower) = true

instance (key : Text) : Decidable (IsBatectKey key) := inferInstanceAs (Decidable (_ ∧ _))

/-- A generated project cache key. -/
def IsCacheKey (key : Text) : Prop := IsUuid key ∨ IsBatectKey key

/-- A UUID has no hyphen where Batect's keys end. -/
theorem IsUuid.not_hyphen {key : Text} (h : IsUuid key) : key[6]? ≠ some '-' := by
  obtain ⟨hlength, hchars⟩ := h
  have hhex := hchars ⟨6, by omega⟩
  rw [if_neg (show (6 : ℕ) ∉ [8, 13, 18, 23] by decide)] at hhex
  intro hhyphen
  obtain ⟨hlt, hget⟩ := List.getElem?_eq_some_iff.mp hhyphen
  rw [show key[(⟨6, by omega⟩ : Fin key.length)] = key[6] from rfl, hget] at hhex
  revert hhex
  decide

/-- Batect's six characters and a hyphen begin no UUID. -/
theorem not_prefix_of_lengths {short long rest rest' : Text} (hshort : IsBatectKey short)
    (hlong : IsUuid long) : short ++ '-' :: rest ≠ long ++ '-' :: rest' := by
  intro heq
  apply hlong.not_hyphen
  have hget : (short ++ '-' :: rest)[6]? = some '-' := by
    rw [List.getElem?_append_right hshort.1.le, hshort.1]
    rfl
  rw [heq, List.getElem?_append_left (by rw [hlong.1]; decide)] at hget
  exact hget

/-- What follows a key and its hyphen determines the key. -/
theorem IsCacheKey.append_inj {k₁ k₂ rest₁ rest₂ : Text} (h₁ : IsCacheKey k₁) (h₂ : IsCacheKey k₂)
    (heq : k₁ ++ '-' :: rest₁ = k₂ ++ '-' :: rest₂) : k₁ = k₂ ∧ rest₁ = rest₂ := by
  have hsame : k₁.length = k₂.length := by
    rcases h₁ with h₁ | h₁
    · rcases h₂ with h₂ | h₂
      · rw [h₁.1, h₂.1]
      · exact absurd heq.symm (not_prefix_of_lengths h₂ h₁)
    · rcases h₂ with h₂ | h₂
      · exact absurd heq (not_prefix_of_lengths h₁ h₂)
      · rw [h₁.1, h₂.1]
  obtain ⟨hkey, hrest⟩ := List.append_inj heq hsame
  exact ⟨hkey, List.tail_eq_of_cons_eq hrest⟩

/-! ### Volumes -/

/-- A volume of one project that has the prefix of another's is of the same project. -/
theorem cacheKey_isPrefix {k₁ k₂ name : Text} (h₁ : IsCacheKey k₁) (h₂ : IsCacheKey k₂)
    (h : cacheVolumeName k₂ [] <+: cacheVolumeName k₁ name) : k₁ = k₂ := by
  obtain ⟨rest, h⟩ := h
  rw [cacheVolumeName_append] at h
  unfold cacheVolumeName at h
  rw [List.append_assoc, List.append_assoc, List.append_cancel_left_eq] at h
  exact (h₁.append_inj h₂ h.symm).1

/-- No shared volume has the prefix of a project's. -/
theorem not_project_sharedCacheVolumeName (key name : Text) :
    ¬ cacheVolumeName key [] <+: sharedCacheVolumeName name := by
  unfold sharedCacheVolumeName cacheVolumeName
  rintro ⟨rest, h⟩
  have hhead := congrArg List.head? h
  cases hhead

/-- Another project's sweep passes a project's volume by. -/
theorem not_mem_matchingCacheVolumes {k₁ k₂ name : Text} (h₁ : IsCacheKey k₁) (h₂ : IsCacheKey k₂)
    (hne : k₁ ≠ k₂) (existing only : List Text) :
    cacheVolumeName k₁ name ∉ matchingCacheVolumes existing (cacheVolumeName k₂ []) only := by
  intro hmem
  obtain ⟨-, rest, hrest, -⟩ := mem_matchingCacheVolumes.mp hmem
  exact hne (cacheKey_isPrefix h₁ h₂ ⟨rest, hrest.symm⟩)

/-! ### Directories -/

/-- The key file of a project. -/
def keyPath (projectDirectory : Path) : Path :=
  Paths.join (cacheDirectory projectDirectory) (Paths.ofText "key".toList)

/-- The path is an entry of the root: its parent is the root, and it is neither the root nor above
it. -/
structure DirectChild (root path : Path) : Prop where
  parent : Paths.parent path = some root
  below : ∀ above, above <+: root → path ≠ above

theorem join_name_ne_nil (base : Path) (name : Paths.Name) :
    Paths.join base [.normal name] ≠ [] := by
  cases base with
  | nil => exact List.cons_ne_nil _ _
  | cons c base => exact List.cons_ne_nil _ _

theorem cacheDirectory_ne_nil (projectDirectory : Path) : cacheDirectory projectDirectory ≠ [] := by
  unfold cacheDirectory
  rw [show "caches".toList = cachesDirectory.text from rfl, Paths.ofText_name]
  exact join_name_ne_nil _ _

theorem sharedCacheRoot_ne_nil (home : Path) : sharedCacheRoot home ≠ [] := by
  unfold sharedCacheRoot
  rw [show "caches".toList = cachesDirectory.text from rfl, Paths.ofText_name]
  exact join_name_ne_nil _ _

/-- Joining a name to a directory leads to an entry of it. -/
theorem directChild_join {root : Path} (hroot : root ≠ []) (name : Paths.Name) :
    DirectChild root (Paths.join root (Paths.ofText name.text)) := by
  have hjoin : Paths.join root (Paths.ofText name.text) = root ++ [.normal name] := by
    rw [Paths.ofText_name]
    cases root with
    | nil => exact absurd rfl hroot
    | cons c root => rfl
  rw [hjoin]
  constructor
  · unfold Paths.parent
    rw [List.getLast?_append]
    simp
  · rintro above habove rfl
    have hlength := habove.length_le
    rw [List.length_append, List.length_singleton] at hlength
    omega

/-- The key file is an entry of the cache directory. -/
theorem directChild_keyPath (projectDirectory : Path) :
    DirectChild (cacheDirectory projectDirectory) (keyPath projectDirectory) :=
  directChild_join (cacheDirectory_ne_nil projectDirectory) ⟨"key".toList, by decide⟩

/-! ### No collisions -/

/-- **Cache storage names never collide.**  Whatever two generated keys and two names, of which only
the one that is joined has to be accepted: the volume name determines key and name; no volume has
another project's prefix, so that no sweep of the other project matches it, and none is both a
project's and shared; and an accepted name joined to a cache root leads to an entry of it, so to
neither the root, which is the parent of the key file, nor to a directory above. -/
theorem cache_names_apart {k₁ k₂ : Text} (hk₁ : IsCacheKey k₁) (hk₂ : IsCacheKey k₂)
    {n₁ n₂ : String} (hn₁ : validateCacheName n₁ = .ok ()) :
    (cacheVolumeName k₁ n₁.toList = cacheVolumeName k₂ n₂.toList → k₁ = k₂ ∧ n₁ = n₂) ∧
      (k₁ ≠ k₂ → ¬ cacheVolumeName k₂ [] <+: cacheVolumeName k₁ n₁.toList ∧
        ∀ existing only,
          cacheVolumeName k₁ n₁.toList ∉
            matchingCacheVolumes existing (cacheVolumeName k₂ []) only) ∧
      ¬ sharedCacheVolumeName [] <+: cacheVolumeName k₁ n₁.toList ∧
      ¬ cacheVolumeName k₁ [] <+: sharedCacheVolumeName n₁.toList ∧
      (∀ projectDirectory, Paths.parent (keyPath projectDirectory) =
        some (cacheDirectory projectDirectory) ∧
        DirectChild (cacheDirectory projectDirectory)
          (Paths.join (cacheDirectory projectDirectory) (Paths.ofText n₁.toList))) ∧
      ∀ home, DirectChild (sharedCacheRoot home)
        (Paths.join (sharedCacheRoot home) (Paths.ofText n₁.toList)) := by
  have hname : Paths.IsName n₁.toList := isName_of_validateCacheName hn₁
  refine ⟨?_, ?_, ?_, ?_, ?_, ?_⟩
  · intro heq
    unfold cacheVolumeName at heq
    rw [List.append_assoc, List.append_assoc, List.append_cancel_left_eq] at heq
    obtain ⟨hkey, hrest⟩ := hk₁.append_inj hk₂ heq
    exact ⟨hkey, String.toList_inj.mp hrest⟩
  · intro hne
    exact ⟨fun h => hne (cacheKey_isPrefix hk₁ hk₂ h), not_mem_matchingCacheVolumes hk₁ hk₂ hne⟩
  · exact not_shared_cacheVolumeName k₁ n₁.toList
  · exact not_project_sharedCacheVolumeName k₁ n₁.toList
  · intro projectDirectory
    exact ⟨(directChild_keyPath projectDirectory).parent,
      directChild_join (cacheDirectory_ne_nil projectDirectory) ⟨n₁.toList, hname⟩⟩
  · intro home
    exact directChild_join (sharedCacheRoot_ne_nil home) ⟨n₁.toList, hname⟩

/-- A UUID against one of Batect's keys, with a name of many hyphens. -/
theorem cache_names_apart_uuid :
    cacheVolumeName "0a1b2c".toList "d-4e5f".toList ≠
      cacheVolumeName "0a1b2c3d-4e5f-4789-8abc-def012345678".toList "gradle".toList := by
  intro heq
  have hbatect : IsCacheKey "0a1b2c".toList := Or.inr (by decide +kernel)
  have huuid : IsCacheKey "0a1b2c3d-4e5f-4789-8abc-def012345678".toList :=
    Or.inl (by decide +kernel)
  have hname : validateCacheName "d-4e5f" = .ok () := by decide +kernel
  have hsame : "0a1b2c".toList = "0a1b2c3d-4e5f-4789-8abc-def012345678".toList :=
    ((cache_names_apart hbatect huuid hname).1 heq).1
  exact absurd hsame (by decide)

end Ratect
