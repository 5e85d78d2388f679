import Mathlib

/-! # Maps in insertion order

`IndexMap` is a finite map whose entries keep the order they were inserted in; every key stands
once.  Looking a key up finds the one entry that has it (`mem_entries_of_get?`, `get?_of_mem`). -/

/-- A finite map, its entries in insertion order. -/
structure IndexMap (K V : Type) where
  entries : List (K × V)
  nodup : (entries.map Prod.fst).Nodup

namespace IndexMap

variable {K V W : Type}

/-- The map with no entries. -/
def empty : IndexMap K V := ⟨[], List.nodup_nil⟩

instance : Inhabited (IndexMap K V) := ⟨empty⟩

/-- The map with one entry. -/
def single (key : K) (value : V) : IndexMap K V := ⟨[(key, value)], List.nodup_singleton _⟩

/-- The keys, in order. -/
def keys (m : IndexMap K V) : List K := m.entries.map Prod.fst

/-- The values, in order. -/
def values (m : IndexMap K V) : List V := m.entries.map Prod.snd

/-- Every value replaced by one made from its key and it. -/
def mapEntries (m : IndexMap K V) (f : K → V → W) : IndexMap K W where
  entries := m.entries.map fun e => (e.1, f e.1 e.2)
  nodup := by
    rw [List.map_map]
    exact m.nodup

@[simp]
theorem keys_mapEntries (m : IndexMap K V) (f : K → V → W) : (m.mapEntries f).keys = m.keys := by
  unfold keys mapEntries
  rw [List.map_map]
  rfl

theorem mem_mapEntries {m : IndexMap K V} {f : K → V → W} {k : K} {w : W} :
    (k, w) ∈ (m.mapEntries f).entries ↔ ∃ v, (k, v) ∈ m.entries ∧ f k v = w := by
  unfold mapEntries
  simp only [List.mem_map, Prod.mk.injEq, Prod.exists]
  constructor
  · rintro ⟨k', v, hmem, rfl, hw⟩
    exact ⟨v, hmem, hw⟩
  · rintro ⟨v, hmem, hw⟩
    exact ⟨k, v, hmem, rfl, hw⟩

theorem mem_keys_of_mem {m : IndexMap K V} {k : K} {v : V} (h : (k, v) ∈ m.entries) : k ∈ m.keys :=
  List.mem_map_of_mem h

theorem mem_keys_iff {m : IndexMap K V} {k : K} : k ∈ m.keys ↔ ∃ v, (k, v) ∈ m.entries := by
  unfold keys
  rw [List.mem_map]
  constructor
  · rintro ⟨⟨k', v⟩, h, rfl⟩
    exact ⟨v, h⟩
  · rintro ⟨v, h⟩
    exact ⟨(k, v), h, rfl⟩

/-- Two entries of one key are the same entry. -/
theorem entry_unique {m : IndexMap K V} {k : K} {v w : V} (hv : (k, v) ∈ m.entries)
    (hw : (k, w) ∈ m.entries) : v = w := by
  have h := List.inj_on_of_nodup_map m.nodup hv hw rfl
  exact congrArg Prod.snd h

theorem keys_filterMap_sublist (f : V → Option W) (entries : List (K × V)) :
    ((entries.filterMap fun e => (f e.2).map (e.1, ·)).map Prod.fst).Sublist
    (entries.map Prod.fst) := by
  induction entries with
  | nil => exact .slnil
  | cons e entries ih =>
      cases hf : f e.2 with
      | none =>
          rw [List.filterMap_cons_none (by rw [hf]; rfl)]
          exact ih.cons e.1
      | some w =>
          rw [List.filterMap_cons_some (by rw [hf]; rfl)]
          exact ih.cons_cons e.1

/-- The entries whose value gives a new one, with it. -/
def filterMapValues (m : IndexMap K V) (f : V → Option W) : IndexMap K W where
  entries := m.entries.filterMap fun e => (f e.2).map (e.1, ·)
  nodup := m.nodup.sublist (keys_filterMap_sublist f m.entries)

theorem mem_filterMapValues {m : IndexMap K V} {f : V → Option W} {k : K} {w : W} :
    (k, w) ∈ (m.filterMapValues f).entries ↔ ∃ v, (k, v) ∈ m.entries ∧ f v = some w := by
  unfold filterMapValues
  simp only [List.mem_filterMap, Option.map_eq_some_iff, Prod.mk.injEq, Prod.exists]
  constructor
  · rintro ⟨k', v, hmem, w', hw, rfl, rfl⟩
    exact ⟨v, hmem, hw⟩
  · rintro ⟨v, hmem, hw⟩
    exact ⟨k, v, hmem, w, hw, rfl, rfl⟩

theorem keys_append_fresh {m : IndexMap K V} {k : K} {v : V} (h : k ∉ m.keys) :
    ((m.entries ++ [(k, v)]).map Prod.fst).Nodup := by
  rw [List.map_append, List.nodup_append]
  refine ⟨m.nodup, List.nodup_singleton _, ?_⟩
  rintro a ha b hb rfl
  rw [List.map_singleton, List.mem_singleton] at hb
  subst hb
  exact h ha

variable [DecidableEq K]

/-- The value of a key. -/
def get? (m : IndexMap K V) (k : K) : Option V :=
  (m.entries.find? fun e => e.1 = k).map Prod.snd

/-- A value under a key: in place of the one that was there, or at the end. -/
def insert (m : IndexMap K V) (k : K) (v : V) : IndexMap K V :=
  if h : k ∈ m.keys then m.mapEntries fun k' v' => if k' = k then v else v'
  else ⟨m.entries ++ [(k, v)], keys_append_fresh h⟩

theorem mem_keys_insert {m : IndexMap K V} {k k' : K} {v : V} :
    k' ∈ (m.insert k v).keys ↔ k' ∈ m.keys ∨ k' = k := by
  unfold insert
  split
  · next h =>
      rw [keys_mapEntries]
      exact ⟨.inl, fun h' => h'.elim id (fun heq => heq ▸ h)⟩
  · next h => simp [keys]

theorem mem_entries_insert {m : IndexMap K V} {k k' : K} {v v' : V}
    (h : (k', v') ∈ (m.insert k v).entries) : (k', v') ∈ m.entries ∨ (k' = k ∧ v' = v) := by
  unfold insert at h
  split at h
  · next hk =>
      obtain ⟨w, hw, hv⟩ := mem_mapEntries.mp h
      split at hv
      · next heq => exact Or.inr ⟨heq, hv.symm⟩
      · exact Or.inl (hv ▸ hw)
  · simpa using h

theorem mem_entries_of_get? {m : IndexMap K V} {k : K} {v : V} (h : m.get? k = some v) :
    (k, v) ∈ m.entries := by
  unfold get? at h
  obtain ⟨e, he, rfl⟩ := Option.map_eq_some_iff.mp h
  have hk : e.1 = k := by simpa using List.find?_some he
  rw [← hk]
  exact List.mem_of_find?_eq_some he

theorem get?_of_mem {m : IndexMap K V} {k : K} {v : V} (h : (k, v) ∈ m.entries) :
    m.get? k = some v := by
  cases hg : m.get? k with
  | none =>
      unfold get? at hg
      rw [Option.map_eq_none_iff, List.find?_eq_none] at hg
      exact absurd (hg (k, v) h) (by simp)
  | some w => rw [entry_unique (mem_entries_of_get? hg) h]

/-- The order of the entries does not matter to a lookup. -/
theorem get?_of_perm {m m' : IndexMap K V} (h : m'.entries.Perm m.entries) (k : K) :
    m'.get? k = m.get? k := by
  cases hget : m.get? k with
  | some v => exact get?_of_mem (h.mem_iff.mpr (mem_entries_of_get? hget))
  | none =>
      cases hget' : m'.get? k with
      | none => rfl
      | some v =>
          rw [get?_of_mem (h.mem_iff.mp (mem_entries_of_get? hget'))] at hget
          cases hget

theorem get?_isSome_iff {m : IndexMap K V} {k : K} : (m.get? k).isSome ↔ k ∈ m.keys := by
  rw [Option.isSome_iff_exists, mem_keys_iff]
  constructor
  · rintro ⟨v, hv⟩
    exact ⟨v, mem_entries_of_get? hv⟩
  · rintro ⟨v, hv⟩
    exact ⟨v, get?_of_mem hv⟩

theorem get?_eq_none_iff {m : IndexMap K V} {k : K} :
    m.get? k = none ↔ ∀ v, (k, v) ∉ m.entries := by
  rw [← Option.not_isSome_iff_eq_none, get?_isSome_iff, mem_keys_iff, not_exists]

theorem get?_filterMapValues (m : IndexMap K V) (f : V → Option W) (k : K) :
    (m.filterMapValues f).get? k = (m.get? k).bind f := by
  cases hg : m.get? k with
  | none =>
      rw [Option.bind_none, get?_eq_none_iff]
      intro w hw
      obtain ⟨v, hv, -⟩ := mem_filterMapValues.mp hw
      exact get?_eq_none_iff.mp hg v hv
  | some v =>
      rw [Option.bind_some]
      have hv := mem_entries_of_get? hg
      cases hf : f v with
      | some w => exact get?_of_mem (mem_filterMapValues.mpr ⟨v, hv, hf⟩)
      | none =>
          rw [get?_eq_none_iff]
          intro w hw
          obtain ⟨v', hv', hw'⟩ := mem_filterMapValues.mp hw
          rw [entry_unique hv' hv, hf] at hw'
          cases hw'

theorem get?_mapEntries (m : IndexMap K V) (f : K → V → W) (k : K) :
    (m.mapEntries f).get? k = (m.get? k).map (f k) := by
  cases hg : m.get? k with
  | some v =>
      apply get?_of_mem
      exact List.mem_map_of_mem (mem_entries_of_get? hg)
  | none =>
      rw [Option.map_none, ← Option.not_isSome_iff_eq_none, get?_isSome_iff, keys_mapEntries,
        ← get?_isSome_iff, hg]
      simp

/-- A key has what was last put under it. -/
theorem get?_insert (m : IndexMap K V) (k : K) (v : V) (k' : K) :
    (m.insert k v).get? k' = if k' = k then some v else m.get? k' := by
  unfold insert
  split
  · next h =>
      rw [get?_mapEntries]
      split
      · next heq =>
          obtain ⟨w, hw⟩ := Option.isSome_iff_exists.mp (get?_isSome_iff.mpr (heq ▸ h))
          rw [hw, Option.map_some]
      · exact Option.map_id'
  · next h =>
      unfold get?
      rw [List.find?_append]
      split
      · next heq =>
          have hnone : m.entries.find? (fun e => decide (e.1 = k')) = none := by
            rw [List.find?_eq_none]
            intro e he
            rw [decide_eq_true_iff]
            rintro rfl
            exact h (heq ▸ List.mem_map_of_mem he)
          rw [hnone, heq]
          simp
      · next hne =>
          have hnone : [(k, v)].find? (fun e => decide (e.1 = k')) = none := by simp [Ne.symm hne]
          rw [hnone, Option.or_none]

end IndexMap
