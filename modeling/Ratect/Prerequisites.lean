import Ratect.Loop
import Ratect.PostOrder
import Ratect.Tasks

/-! # The pre-check is exact

`prerequisitesOf` is the expanded prerequisite list of a task and `Resolves` says that the task
exists and its list expands.  `check_prerequisites` succeeds exactly when the requested task is
`Sound` for them: everything it reaches resolves and no cycle can be reached
(`checkPrerequisites_ok_iff`).

* Success is sound by induction on the walk (`visit_sound`): a visited task resolves and its
  entries end up checked, and `PostOrder.sound_iff` closes the argument.
* A sound task is accepted (`visit_complete`): an entry on the path would close a cycle, and the
  path is a list of distinct tasks, so the walk's bound is never reached. -/

namespace Ratect

open PostOrder (Edge Reaches Sound)

section precheck

variable (regex : RegexCrate) (tasks : Tasks)

/-- The expanded prerequisite list of a task; empty where there is no such task or list. -/
def prerequisitesOf (name : String) : List String :=
  match tasks.get? name with
  | none => []
  | some task =>
      match task.prerequisites with
      | none => []
      | some prerequisites =>
          match expandPrerequisiteWildcards regex tasks prerequisites with
          | .ok names => names
          | .error _ => []

/-- The task exists, and its prerequisite list expands. -/
structure Resolves (name : String) : Prop where
  exists_task : ∃ task, tasks.get? name = some task
  expands : ∀ task prerequisites, tasks.get? name = some task →
    task.prerequisites = some prerequisites →
    ∃ names, expandPrerequisiteWildcards regex tasks prerequisites = .ok names

/-! ### The lookups of one list -/

theorem findTask_eq_ok {name : String} {requested : Bool} {task : Task} :
    findTask tasks name requested = .ok task ↔ tasks.get? name = some task := by
  unfold findTask
  cases tasks.get? name with
  | none => simp
  | some t => simp

theorem resolveAll_cons (path : List String) (name : String) (names : List String)
    (resolved : List (String × Task)) :
    resolveAll tasks path (name :: names) = .ok resolved ↔
      ∃ task rest, tasks.get? name = some task ∧ name ∉ path ∧
        resolveAll tasks path names = .ok rest ∧ resolved = (name, task) :: rest := by
  rw [resolveAll, Except.bind_eq_ok]
  constructor
  · rintro ⟨task, ht, h⟩
    rw [findTask_eq_ok] at ht
    split_ifs at h with hp
    · cases h
    · obtain ⟨rest, hr, h⟩ := Except.bind_eq_ok.mp h
      exact ⟨task, rest, ht, hp, hr, (Except.ok.inj h).symm⟩
  · rintro ⟨task, rest, ht, hp, hr, rfl⟩
    refine ⟨task, (findTask_eq_ok tasks).mpr ht, ?_⟩
    rw [if_neg hp]
    exact Except.bind_eq_ok.mpr ⟨rest, hr, rfl⟩

/-- The first loop accepts a list exactly when every entry exists and is off the path. -/
theorem resolveAll_ok_iff (path names : List String) :
    (∃ resolved, resolveAll tasks path names = .ok resolved) ↔
      ∀ n ∈ names, (∃ task, tasks.get? n = some task) ∧ n ∉ path := by
  induction names with
  | nil => simp [resolveAll]
  | cons name names ih =>
      simp only [resolveAll_cons, List.mem_cons, forall_eq_or_imp, ← ih]
      constructor
      · rintro ⟨_, task, rest, ht, hp, hr, _⟩
        exact ⟨⟨⟨task, ht⟩, hp⟩, rest, hr⟩
      · rintro ⟨⟨⟨task, ht⟩, hp⟩, rest, hr⟩
        exact ⟨_, task, rest, ht, hp, hr, rfl⟩

theorem resolveAll_mem {path names : List String} {resolved : List (String × Task)}
    (h : resolveAll tasks path names = .ok resolved) :
    resolved.map Prod.fst = names ∧ ∀ e ∈ resolved, tasks.get? e.1 = some e.2 := by
  induction names generalizing resolved with
  | nil =>
      obtain rfl := Except.ok.inj h
      simp
  | cons name names ih =>
      obtain ⟨task, rest, ht, _, hr, rfl⟩ := (resolveAll_cons tasks path name names resolved).mp h
      obtain ⟨hmap, hmem⟩ := ih hr
      refine ⟨by rw [List.map_cons, hmap], ?_⟩
      simp only [List.mem_cons, forall_eq_or_imp]
      exact ⟨ht, hmem⟩

/-! ### Success is sound -/

variable {regex tasks}

theorem prerequisitesOf_none {name : String} {task : Task} (ht : tasks.get? name = some task)
    (hp : task.prerequisites = none) : prerequisitesOf regex tasks name = [] := by
  simp [prerequisitesOf, ht, hp]

theorem prerequisitesOf_some {name : String} {task : Task} {prerequisites names : List String}
    (ht : tasks.get? name = some task) (hp : task.prerequisites = some prerequisites)
    (he : expandPrerequisiteWildcards regex tasks prerequisites = .ok names) :
    prerequisitesOf regex tasks name = names := by
  simp [prerequisitesOf, ht, hp, he]

/-- If each visit it makes is sound, so is the second loop. -/
theorem visitAll_sound {v : List String → List String → Task → Except TaskError (List String)}
    {P : String → Prop}
    (hv : ∀ path checked name task checked', tasks.get? name = some task →
      v path checked task = .ok checked' → (∀ c ∈ checked, P c) → P name ∧ ∀ c ∈ checked', P c)
    {path checked checked' : List String} {resolved : List (String × Task)}
    (hr : ∀ e ∈ resolved, tasks.get? e.1 = some e.2)
    (h : visitAll v path checked resolved = .ok checked') (hc : ∀ c ∈ checked, P c) :
    (∀ e ∈ resolved, P e.1) ∧ ∀ c ∈ checked', P c := by
  induction resolved generalizing checked with
  | nil =>
      obtain rfl := Except.ok.inj h
      exact ⟨by simp, hc⟩
  | cons e resolved ih =>
      obtain ⟨name, task⟩ := e
      have hr' : ∀ e ∈ resolved, tasks.get? e.1 = some e.2 := fun e he => hr e (by simp [he])
      rw [visitAll] at h
      split_ifs at h with hn
      · obtain ⟨h1, h2⟩ := ih hr' h hc
        refine ⟨?_, h2⟩
        simp only [List.mem_cons, forall_eq_or_imp]
        exact ⟨hc name hn, h1⟩
      · obtain ⟨mid, hmid, h⟩ := Except.bind_eq_ok.mp h
        obtain ⟨hname, hmid'⟩ := hv _ _ name task mid (hr (name, task) (by simp)) hmid hc
        have hc' : ∀ c ∈ mid ++ [name], P c := by
          intro c hc
          rcases List.mem_append.mp hc with hc | hc
          · exact hmid' c hc
          · rw [List.mem_singleton.mp hc]
            exact hname
        obtain ⟨h1, h2⟩ := ih hr' h hc'
        refine ⟨?_, h2⟩
        simp only [List.mem_cons, forall_eq_or_imp]
        exact ⟨hname, h1⟩

/-- A task that the walk gets through is sound, and so is every name it marks as checked. -/
theorem visit_sound (fuel : ℕ) (path checked : List String) (name : String) (task : Task)
    (checked' : List String) (ht : tasks.get? name = some task)
    (h : visit regex tasks fuel path checked task = .ok checked')
    (hc : ∀ c ∈ checked, Sound (Resolves regex tasks) (prerequisitesOf regex tasks) c) :
    Sound (Resolves regex tasks) (prerequisitesOf regex tasks) name ∧
      ∀ c ∈ checked', Sound (Resolves regex tasks) (prerequisitesOf regex tasks) c := by
  induction fuel generalizing path checked name task checked' with
  | zero => cases h
  | succ fuel ih =>
      rw [visit] at h
      cases hp : task.prerequisites with
      | none =>
          rw [hp] at h
          obtain rfl := Except.ok.inj h
          refine ⟨PostOrder.sound_iff.mpr ⟨⟨⟨task, ht⟩, ?_⟩, ?_⟩, hc⟩
          · intro task' prerequisites ht' hp'
            obtain rfl := Option.some.inj (ht.symm.trans ht')
            rw [hp] at hp'
            cases hp'
          · rw [prerequisitesOf_none ht hp]
            simp
      | some prerequisites =>
          rw [hp] at h
          obtain ⟨names, hnames, h⟩ := Except.bind_eq_ok.mp h
          obtain ⟨resolved, hres, h⟩ := Except.bind_eq_ok.mp h
          obtain ⟨hmap, hmem⟩ := resolveAll_mem tasks hres
          obtain ⟨hall, hc'⟩ := visitAll_sound
            (fun path checked name task checked' ht h hc =>
              ih path checked name task checked' ht h hc)
            hmem h hc
          refine ⟨PostOrder.sound_iff.mpr ⟨⟨⟨task, ht⟩, ?_⟩, ?_⟩, hc'⟩
          · intro task' prerequisites' ht' hp'
            obtain rfl := Option.some.inj (ht.symm.trans ht')
            rw [hp] at hp'
            obtain rfl := Option.some.inj hp'
            exact ⟨names, hnames⟩
          · rw [prerequisitesOf_some ht hp hnames, ← hmap]
            intro n hn
            obtain ⟨e, he, rfl⟩ := List.mem_map.mp hn
            exact hall e he

/-! ### A sound task is accepted -/

theorem visitAll_complete {v : List String → List String → Task → Except TaskError (List String)}
    {path : List String} {resolved : List (String × Task)}
    (hv : ∀ e ∈ resolved, ∀ checked, ∃ checked', v (path ++ [e.1]) checked e.2 = .ok checked')
    (checked : List String) : ∃ checked', visitAll v path checked resolved = .ok checked' := by
  induction resolved generalizing checked with
  | nil => exact ⟨checked, rfl⟩
  | cons e resolved ih =>
      obtain ⟨name, task⟩ := e
      have ih' := ih fun e he => hv e (by simp [he])
      rw [visitAll]
      split_ifs with hn
      · exact ih' checked
      · obtain ⟨mid, hmid⟩ := hv (name, task) (by simp) checked
        obtain ⟨checked', h⟩ := ih' (mid ++ [name])
        exact ⟨checked', Except.bind_eq_ok.mpr ⟨mid, hmid, h⟩⟩

/-- The walk gets through a sound task: every name on the path leads to it, so none of its
entries is on the path, and the path has fewer names than there are tasks. -/
theorem visit_complete (fuel : ℕ) (path checked : List String) (name : String) (task : Task)
    (ht : tasks.get? name = some task)
    (hs : Sound (Resolves regex tasks) (prerequisitesOf regex tasks) name)
    (hpath : ∀ p ∈ path, Reaches (prerequisitesOf regex tasks) p name)
    (hkeys : ∀ p ∈ path, p ∈ tasks.keys) (hnodup : path.Nodup)
    (hfuel : tasks.entries.length < fuel + path.length) :
    ∃ checked', visit regex tasks fuel path checked task = .ok checked' := by
  have hlen : path.length ≤ tasks.entries.length := by
    have := (List.subperm_of_subset hnodup hkeys).length_le
    simpa [Tasks.keys] using this
  induction fuel generalizing path checked name task with
  | zero => omega
  | succ fuel ih =>
      rw [visit]
      cases hp : task.prerequisites with
      | none => exact ⟨checked, rfl⟩
      | some prerequisites =>
          obtain ⟨names, hnames⟩ := hs.ok.expands task prerequisites ht hp
          have hlist := prerequisitesOf_some ht hp hnames
          have hoff : ∀ n ∈ names, (∃ task, tasks.get? n = some task) ∧ n ∉ path := by
            intro n hn
            have hedge : Edge (prerequisitesOf regex tasks) name n := by
              rw [Edge, hlist]
              exact hn
            refine ⟨(hs.of_edge hedge).ok.exists_task, fun hnp => ?_⟩
            exact hs.2 name Relation.ReflTransGen.refl
              (Relation.TransGen.head' hedge (hpath n hnp))
          obtain ⟨resolved, hres⟩ := (resolveAll_ok_iff tasks path names).mpr hoff
          obtain ⟨hmap, hmem⟩ := resolveAll_mem tasks hres
          have hvisit : ∀ e ∈ resolved, ∀ checked,
              ∃ checked', visit regex tasks fuel (path ++ [e.1]) checked e.2 = .ok checked' := by
            intro e he checked
            have hn : e.1 ∈ names := by
              rw [← hmap]
              exact List.mem_map_of_mem he
            have hedge : Edge (prerequisitesOf regex tasks) name e.1 := by
              rw [Edge, hlist]
              exact hn
            have hnodup' : (path ++ [e.1]).Nodup := by
              rw [List.nodup_append]
              refine ⟨hnodup, List.nodup_singleton _, ?_⟩
              intro x hx y hy
              rw [List.mem_singleton.mp hy]
              rintro rfl
              exact (hoff _ hn).2 hx
            have hkeys' : ∀ p ∈ path ++ [e.1], p ∈ tasks.keys := by
              intro p hp
              rcases List.mem_append.mp hp with hp | hp
              · exact hkeys p hp
              · rw [List.mem_singleton.mp hp]
                exact Tasks.mem_keys_of_get? (hmem e he)
            apply ih (path ++ [e.1]) checked e.1 e.2 (hmem e he) (hs.of_edge hedge) _ hkeys' hnodup'
            · simp only [List.length_append, List.length_singleton]
              omega
            · have := (List.subperm_of_subset hnodup' hkeys').length_le
              simpa [Tasks.keys] using this
            · intro p hp
              rcases List.mem_append.mp hp with hp | hp
              · exact (hpath p hp).tail hedge
              · rw [List.mem_singleton.mp hp]
                exact Relation.ReflTransGen.refl
          obtain ⟨checked', h⟩ := visitAll_complete hvisit checked
          exact ⟨checked', Except.bind_eq_ok.mpr ⟨names, hnames,
            Except.bind_eq_ok.mpr ⟨resolved, hres, h⟩⟩⟩

/-! ### The whole check -/

variable (regex tasks)

/-- The list a run requested as `requested` reads for a task: its expanded prerequisites, but
nothing for the requested task itself when its prerequisites are skipped. -/
def readPrerequisites (requested : String) (skip : Bool) (name : String) : List String :=
  if skip = true ∧ name = requested then [] else prerequisitesOf regex tasks name

/-- The task exists and the list such a run reads for it expands. -/
structure ResolvesFor (requested : String) (skip : Bool) (name : String) : Prop where
  exists_task : ∃ task, tasks.get? name = some task
  expands : ¬ (skip = true ∧ name = requested) → Resolves regex tasks name

theorem readPrerequisites_keep (requested : String) :
    readPrerequisites regex tasks requested false = prerequisitesOf regex tasks := by
  funext name
  simp [readPrerequisites]

theorem resolvesFor_keep (requested : String) :
    ResolvesFor regex tasks requested false = Resolves regex tasks := by
  funext name
  refine propext ⟨fun h => h.expands (by simp), fun h => ⟨h.exists_task, fun _ => h⟩⟩

/-- A skipped list is empty, so the requested task reaches only itself. -/
theorem reaches_skip {requested name : String}
    (h : Reaches (readPrerequisites regex tasks requested true) requested name) :
    name = requested := by
  rcases Relation.ReflTransGen.cases_head h with rfl | ⟨c, hc, _⟩
  · rfl
  · simp [Edge, readPrerequisites] at hc

theorem not_cycle_skip (requested : String) :
    ¬ Relation.TransGen (Edge (readPrerequisites regex tasks requested true))
      requested requested := by
  intro h
  obtain ⟨c, hc, _⟩ := Relation.TransGen.head'_iff.mp h
  simp [Edge, readPrerequisites] at hc

/-- `check_prerequisites` succeeds exactly on a requested task without problems. -/
theorem checkPrerequisites_ok_iff (requested : String) (skip : Bool) :
    checkPrerequisites regex tasks requested skip = .ok () ↔
      Sound (ResolvesFor regex tasks requested skip) (readPrerequisites regex tasks requested skip)
        requested := by
  rw [checkPrerequisites, Except.bind_eq_ok]
  simp only [findTask_eq_ok]
  cases skip with
  | true =>
      simp only [if_true]
      constructor
      · rintro ⟨task, ht, _⟩
        refine ⟨fun b hb => ?_, fun b hb => ?_⟩
        · rw [reaches_skip regex tasks hb]
          exact ⟨⟨task, ht⟩, fun h => absurd ⟨rfl, rfl⟩ h⟩
        · rw [reaches_skip regex tasks hb]
          exact not_cycle_skip regex tasks requested
      · intro h
        obtain ⟨task, ht⟩ := h.ok.exists_task
        exact ⟨task, ht, rfl⟩
  | false =>
      rw [readPrerequisites_keep, resolvesFor_keep]
      simp only [Bool.false_eq_true, if_false]
      constructor
      · rintro ⟨task, ht, h⟩
        obtain ⟨checked, hv, _⟩ := Except.bind_eq_ok.mp h
        exact (visit_sound _ _ _ requested task checked ht hv (by simp)).1
      · intro hs
        obtain ⟨task, ht⟩ := hs.ok.exists_task
        obtain ⟨checked, hv⟩ := visit_complete (tasks.entries.length + 1) [requested] [] requested
          task ht hs (by simp [Reaches, Relation.ReflTransGen.refl])
          (by simpa using Tasks.mem_keys_of_get? ht) (List.nodup_singleton _)
          (by simp only [List.length_singleton]; omega)
        exact ⟨task, ht, Except.bind_eq_ok.mpr ⟨checked, hv, rfl⟩⟩

end precheck

end Ratect
