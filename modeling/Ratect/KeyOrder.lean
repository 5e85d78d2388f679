import Ratect.IndexMap
import Ratect.Loop

/-! # Maps by key, and maps whose values may fail

`sorted` puts a map in the order of its keys: the same entries, so the same value under each key,
and it does not matter whether the values are mapped before or after.  `mapEntriesM` maps the values
by what may fail, in order; the keys stay as they are. -/

/-- What fails in two parts fails in the first, or after it in the second. -/
theorem Except.bind_eq_error {ε α β : Type} {x : Except ε α} {f : α → Except ε β} {e : ε} :
    (x >>= f) = .error e ↔ x = .error e ∨ ∃ a, x = .ok a ∧ f a = .error e := by
  cases x with
  | error e' =>
      constructor
      · intro h
        cases h
        exact Or.inl rfl
      · rintro (h | ⟨a, ha, -⟩)
        · cases h
          rfl
        · cases ha
  | ok a =>
      constructor
      · intro h
        exact Or.inr ⟨a, rfl, h⟩
      · rintro (h | ⟨a', ha, h⟩)
        · cases h
        · cases ha
          exact h

namespace IndexMap

variable {K V W : Type}

/-! ### By key -/

section sorted

variable [LinearOrder K]

/-- Named things in the order of their names, those of one name as they come. -/
def byKey (l : List (K × V)) : List (K × V) := l.mergeSort fun a b => decide (a.1 ≤ b.1)

theorem byKey_perm (l : List (K × V)) : (byKey l).Perm l := List.mergeSort_perm l _

/-- The map with its keys in order. -/
def sorted (m : IndexMap K V) : IndexMap K V where
  entries := byKey m.entries
  nodup := ((byKey_perm m.entries).map Prod.fst).nodup_iff.mpr m.nodup

theorem entries_sorted (m : IndexMap K V) : m.sorted.entries.Perm m.entries := byKey_perm m.entries

theorem keys_sorted (m : IndexMap K V) : m.sorted.keys.Perm m.keys :=
  (entries_sorted m).map Prod.fst

theorem mem_keys_sorted {m : IndexMap K V} {k : K} : k ∈ m.sorted.keys ↔ k ∈ m.keys :=
  (keys_sorted m).mem_iff

end sorted

/-! ### Values that may fail -/

variable {ε : Type}

theorem exists_of_mapM_error {α β : Type} {f : α → Except ε β} {l : List α} {e : ε}
    (h : l.mapM f = .error e) : ∃ a ∈ l, f a = .error e := by
  induction l with
  | nil => cases h
  | cons a l ih =>
      rw [List.mapM_cons, Except.bind_eq_error] at h
      rcases h with hfail | ⟨b, -, h⟩
      · exact ⟨a, List.mem_cons_self, hfail⟩
      · rcases Except.bind_eq_error.mp h with hfail | ⟨bs, -, h⟩
        · obtain ⟨a', ha', hfail⟩ := ih hfail
          exact ⟨a', List.mem_cons_of_mem _ ha', hfail⟩
        · cases h

/-- What is in the second of two related lists is related to something in the first. -/
theorem exists_of_forall₂ {α β : Type} {R : α → β → Prop} {l : List α} {r : List β}
    (h : List.Forall₂ R l r) {b : β} (hb : b ∈ r) : ∃ a ∈ l, R a b := by
  induction h with
  | nil => cases hb
  | @cons a b' l r hab _ ih =>
      rcases List.mem_cons.mp hb with rfl | hb
      · exact ⟨a, List.mem_cons_self, hab⟩
      · obtain ⟨a', ha', hab'⟩ := ih hb
        exact ⟨a', List.mem_cons_of_mem _ ha', hab'⟩

theorem map_eq_of_forall₂ {α β γ : Type} {R : α → β → Prop} {l : List α} {r : List β} {p : α → γ}
    {q : β → γ} (h : List.Forall₂ R l r) (hpq : ∀ a b, R a b → q b = p a) : r.map q = l.map p := by
  induction h with
  | nil => rfl
  | cons hab _ ih => rw [List.map_cons, List.map_cons, hpq _ _ hab, ih]

theorem map_fst_of_mapM {l : List (K × V)} {f : K → V → Except ε W} {results : List (K × W)}
    (h : l.mapM (fun e => (f e.1 e.2).map (Prod.mk e.1)) = .ok results) :
    results.map Prod.fst = l.map Prod.fst := by
  refine map_eq_of_forall₂ (Except.mapM_eq_ok.mp h) ?_
  intro a b hab
  cases hf : f a.1 a.2 with
  | error e =>
      rw [hf] at hab
      cases hab
  | ok w =>
      rw [hf] at hab
      cases hab
      rfl

/-- Each value mapped by what may fail: the first failure, or the map. -/
def mapEntriesM (m : IndexMap K V) (f : K → V → Except ε W) : Except ε (IndexMap K W) :=
  match h : m.entries.mapM fun e => (f e.1 e.2).map (Prod.mk e.1) with
  | .error e => .error e
  | .ok entries => .ok ⟨entries, by rw [map_fst_of_mapM h]; exact m.nodup⟩

/-- Mapping fails as it does at one of the values. -/
theorem mapEntriesM_error {m : IndexMap K V} {f : K → V → Except ε W} {e : ε}
    (h : m.mapEntriesM f = .error e) : ∃ entry ∈ m.entries, f entry.1 entry.2 = .error e := by
  unfold mapEntriesM at h
  split at h
  · next e' hentries =>
      cases h
      obtain ⟨entry, hentry, hfail⟩ := exists_of_mapM_error hentries
      refine ⟨entry, hentry, ?_⟩
      cases hf : f entry.1 entry.2 with
      | error e' =>
          rw [hf] at hfail
          cases hfail
          rfl
      | ok w =>
          rw [hf] at hfail
          cases hfail
  · cases h

/-- What mapping yields, where it does not fail. -/
theorem mapEntriesM_ok {m : IndexMap K V} {f : K → V → Except ε W} {m' : IndexMap K W}
    (h : m.mapEntriesM f = .ok m') :
    List.Forall₂ (fun a b => b.1 = a.1 ∧ f a.1 a.2 = .ok b.2) m.entries m'.entries := by
  unfold mapEntriesM at h
  split at h
  · cases h
  · next entries hentries =>
      cases h
      refine (Except.mapM_eq_ok.mp hentries).imp ?_
      intro a b hab
      cases hf : f a.1 a.2 with
      | error e =>
          rw [hf] at hab
          cases hab
      | ok w =>
          rw [hf] at hab
          cases hab
          exact ⟨rfl, rfl⟩

/-! ### By group -/

/-- What is grouped under each of some keys is all there is, if every key is one of them. -/
theorem perm_groups [DecidableEq K] {keys : List K} (hkeys : keys.Nodup) {l : List (K × V)}
    (hl : ∀ e ∈ l, e.1 ∈ keys) :
    (keys.flatMap fun k => (l.filter fun e => e.1 = k).map Prod.snd).Perm (l.map Prod.snd) := by
  induction keys generalizing l with
  | nil =>
      rw [List.eq_nil_iff_forall_not_mem.mpr fun e he => List.not_mem_nil (hl e he)]
      exact List.Perm.refl _
  | cons k keys ih =>
      obtain ⟨hfresh, hkeys⟩ := List.nodup_cons.mp hkeys
      have hrest : ∀ e ∈ l.filter (fun e => !decide (e.1 = k)), e.1 ∈ keys := by
        intro e he
        obtain ⟨he, hne⟩ := List.mem_filter.mp he
        exact (List.mem_cons.mp (hl e he)).resolve_left (by simpa using hne)
      -- What is under another key is the same without what is under this one.
      have hsame : (keys.flatMap fun k' =>
          ((l.filter fun e => !decide (e.1 = k)).filter fun e => e.1 = k').map Prod.snd) =
          keys.flatMap fun k' => (l.filter fun e => e.1 = k').map Prod.snd := by
        apply List.flatMap_congr
        intro k' hk'
        rw [List.filter_filter]
        congr 1
        apply List.filter_congr
        intro e _
        have hne : k' ≠ k := fun heq => hfresh (heq ▸ hk')
        by_cases he : e.1 = k'
        · simp [he, hne]
        · simp [he]
      rw [List.flatMap_cons, ← hsame]
      refine ((ih hkeys hrest).append_left _).trans ?_
      rw [← List.map_append]
      exact (List.filter_append_perm (fun e => decide (e.1 = k)) l).map Prod.snd

end IndexMap
