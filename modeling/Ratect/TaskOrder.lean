import Ratect.Prerequisites

/-! # Running a task and its prerequisites

The depth-first run of `run_task`: `run_task_scoped` does the dedup and cycle bookkeeping,
`run_task_internal` runs the prerequisites one at a time and then the task's own part (its
evaluation, the override check, the signal check and the run itself).  What that own part does is
another module's business; here a `Host` says how each of its steps turns out, and what the
signal count is whenever it is read.

`runTaskScoped_progress` is the one induction: run from a state whose tasks in progress all lead to
a sound task, the run either fails for a reason of its own (`Benign`) or extends the list of
executed tasks by a depth-first walk (`PostOrder.Walk`). -/

namespace Ratect

open PostOrder (Edge Reaches Sound Walk InTurn Ordered)

/-- What a run meets outside this module: the signal tracker, and the steps of a task's own part.
`execute` is everything from the container graph to the end of cleanup. -/
structure Host (σ : Type) where
  count : σ → ℕ × σ
  lastSignal : σ → TerminationSignal
  evaluate : String → σ → Except String Unit × σ
  checkImageOverrides : Except String Unit
  execute : String → Bool → σ → Except String Unit × σ
  checkImageTags : σ → Except String Unit

/-- The state of a run: the two sets of the engine, the notices posted, and every task whose own
part was reached, with whether it succeeded. -/
structure RunState (σ : Type) where
  executed : List String
  inProgress : List String
  notices : List String
  bodies : List (String × Bool)
  world : σ

/-- An engine before its run. -/
def RunState.initial {σ : Type} (world : σ) : RunState σ := ⟨[], [], [], [], world⟩

section run

variable {σ : Type} (regex : RegexCrate) (tasks : Tasks) (skipPrerequisites : Bool) (host : Host σ)

/-- The outcome of an action: its result, and the state it leaves. -/
abbrev Outcome (σ : Type) := Except TaskError Unit × RunState σ

/-- `stop_if_signalled`: ends the run if a signal has arrived since `baseline`. -/
def stopIfSignalled (baseline : ℕ) (next : String) (s : RunState σ) : Outcome σ :=
  let (count, world) := host.count s.world
  let s := { s with world := world }
  if count ≤ baseline then (.ok (), s)
  else
    let signal := host.lastSignal s.world
    (.error (.interrupted signal), { s with notices := s.notices ++ [signal.notStarting next] })

/-- A step of the task's own part, with the state threaded through. -/
def ownStep (step : σ → Except String Unit × σ) (s : RunState σ) : Outcome σ :=
  match step s.world with
  | (.ok (), world) => (.ok (), { s with world := world })
  | (.error message, world) => (.error (.body message), { s with world := world })

/-- `x` and then `f`, unless `x` failed. -/
def andThen (x : Outcome σ) (f : RunState σ → Outcome σ) : Outcome σ :=
  match x with
  | (.ok (), s) => f s
  | (.error e, s) => (.error e, s)

/-- The task's own part, after its prerequisites: evaluated first; a task without `run` stops
there; the overrides and the signal are checked before anything of its own starts. -/
def ownPart (name : String) (task : Task) (topLevel : Bool) (baseline : ℕ) (s : RunState σ) :
    Outcome σ :=
  andThen (ownStep (host.evaluate name) s) fun s =>
    match task.run with
    | none => (.ok (), s)
    | some _ =>
        andThen (ownStep (fun w => (host.checkImageOverrides, w)) s) fun s =>
          andThen (stopIfSignalled host baseline name s) fun s =>
            ownStep (host.execute name topLevel) s

/-- The own part, recorded in `bodies`. -/
def runOwnPart (name : String) (task : Task) (topLevel : Bool) (baseline : ℕ) (s : RunState σ) :
    Outcome σ :=
  let (result, s) := ownPart host name task topLevel baseline s
  (result, { s with bodies := s.bodies ++ [(name, result.isOk)] })

/-- The prerequisite loop of `run_task_internal`. -/
def runPrerequisites (runScoped : String → RunState σ → Outcome σ) (baseline : ℕ) :
    List String → RunState σ → Outcome σ
  | [], s => (.ok (), s)
  | prerequisite :: rest, s =>
      andThen
        (if prerequisite ∈ s.executed then (.ok (), s)
          else stopIfSignalled host baseline prerequisite s) fun s =>
        andThen (runScoped prerequisite s) fun s => runPrerequisites runScoped baseline rest s

/-- `run_task_internal`: the prerequisites, then the task's own part. -/
def runTaskInternal (runScoped : String → RunState σ → Outcome σ) (name : String)
    (topLevel : Bool) (s : RunState σ) : Outcome σ :=
  match findTask tasks name topLevel with
  | .error e => (.error e, s)
  | .ok task =>
      let (baseline, world) := host.count s.world
      let s := { s with world := world }
      let prerequisites : Except TaskError (List String) :=
        if topLevel && skipPrerequisites then .ok []
        else
          match task.prerequisites with
          | none => .ok []
          | some prerequisites => expandPrerequisiteWildcards regex tasks prerequisites
      match prerequisites with
      | .error e => (.error e, s)
      | .ok names =>
          andThen (runPrerequisites host runScoped baseline names s) fun s =>
            runOwnPart host name task topLevel baseline s

/-- The end of `run_task_scoped`: the task is no longer in progress, and executed if it
succeeded. -/
def leaveScope (name : String) (out : Outcome σ) : Outcome σ :=
  let s := { out.2 with inProgress := out.2.inProgress.filter fun n => n ≠ name }
  match out.1 with
  | .ok () => (.ok (), { s with executed := s.executed ++ [name] })
  | .error e => (.error e, s)

/-- `run_task_scoped`: skipped if already executed, refused if in progress. -/
def runTaskScoped : ℕ → String → Bool → RunState σ → Outcome σ
  | 0, _, _, s => (.error .outOfFuel, s)
  | fuel + 1, name, topLevel, s =>
      if name ∈ s.executed then (.ok (), s)
      else if name ∈ s.inProgress then (.error (.taskCycle name), s)
      else
        let s := { s with inProgress := s.inProgress ++ [name] }
        leaveScope name (runTaskInternal regex tasks skipPrerequisites host
          (fun prerequisite => runTaskScoped fuel prerequisite false) name topLevel s)

/-- `run_task`: the pre-check, the run, and the check that every tagged image was used. -/
def runTask (name : String) (world : σ) : Outcome σ :=
  match checkPrerequisites regex tasks name skipPrerequisites with
  | .error e => (.error e, .initial world)
  | .ok () =>
      andThen (runTaskScoped regex tasks skipPrerequisites host (tasks.entries.length + 1) name true
        (.initial world)) fun s => ownStep (fun w => (host.checkImageTags w, w)) s

end run

/-! ### What one step can do -/

/-- A failure of the run itself: a signal, or a task's own part. -/
def Benign (e : TaskError) : Prop := (∃ signal, e = .interrupted signal) ∨ ∃ m, e = .body m

/-- Every task's own part succeeds and no signal arrives. -/
structure Host.Calm {σ : Type} (host : Host σ) : Prop where
  count : ∃ c, ∀ w, (host.count w).1 = c
  evaluate : ∀ name w, (host.evaluate name w).1 = .ok ()
  overrides : host.checkImageOverrides = .ok ()
  execute : ∀ name topLevel w, (host.execute name topLevel w).1 = .ok ()

/-- Two states that agree on the engine's sets and the record of bodies. -/
def SameBooks {σ : Type} (s s' : RunState σ) : Prop :=
  s'.executed = s.executed ∧ s'.inProgress = s.inProgress ∧ s'.bodies = s.bodies

section steps

variable {σ : Type} {host : Host σ}

theorem SameBooks.trans {s s' s'' : RunState σ} (h : SameBooks s s') (h' : SameBooks s' s'') :
    SameBooks s s'' :=
  ⟨h'.1.trans h.1, h'.2.1.trans h.2.1, h'.2.2.trans h.2.2⟩

/-- A step that leaves the books alone, and fails only benignly, never under a calm host. -/
def Quiet (host : Host σ) (s : RunState σ) (out : Outcome σ) : Prop :=
  SameBooks s out.2 ∧ ∀ e, out.1 = .error e → Benign e ∧ ¬ host.Calm

theorem quiet_ok {s s' : RunState σ} (h : SameBooks s s') : Quiet host s (.ok (), s') :=
  ⟨h, fun e he => by cases he⟩

theorem Quiet.andThen {s : RunState σ} {x : Outcome σ} {f : RunState σ → Outcome σ}
    (hx : Quiet host s x) (hf : ∀ s', SameBooks s s' → Quiet host s' (f s')) :
    Quiet host s (andThen x f) := by
  obtain ⟨result, s'⟩ := x
  cases result with
  | error e => exact hx
  | ok u =>
      obtain ⟨hb, he⟩ := hf s' hx.1
      exact ⟨hx.1.trans hb, he⟩

theorem ownStep_quiet (step : σ → Except String Unit × σ) (s : RunState σ)
    (h : host.Calm → (step s.world).1 = .ok ()) : Quiet host s (ownStep step s) := by
  unfold ownStep
  rcases hstep : step s.world with ⟨message | u, world⟩
  · refine ⟨⟨rfl, rfl, rfl⟩, fun e he => ?_⟩
    obtain rfl := Except.error.inj he
    refine ⟨.inr ⟨message, rfl⟩, fun hc => ?_⟩
    have := h hc
    rw [hstep] at this
    cases this
  · exact quiet_ok ⟨rfl, rfl, rfl⟩

/-- `baseline` is what a calm host's counter always reads. -/
def Baseline (host : Host σ) (baseline : ℕ) : Prop :=
  host.Calm → ∀ w, (host.count w).1 ≤ baseline

theorem baseline_of_count (host : Host σ) (w : σ) : Baseline host (host.count w).1 := by
  intro hc w'
  obtain ⟨c, hc⟩ := hc.count
  rw [hc w, hc w']

theorem stopIfSignalled_quiet {baseline : ℕ} (hb : Baseline host baseline) (next : String)
    (s : RunState σ) : Quiet host s (stopIfSignalled host baseline next s) := by
  unfold stopIfSignalled
  dsimp only
  split_ifs with h
  · exact quiet_ok ⟨rfl, rfl, rfl⟩
  · refine ⟨⟨rfl, rfl, rfl⟩, fun e he => ?_⟩
    obtain rfl := Except.error.inj he
    exact ⟨.inl ⟨_, rfl⟩, fun hc => h (hb hc _)⟩

theorem ownPart_quiet {baseline : ℕ} (hb : Baseline host baseline) (name : String) (task : Task)
    (topLevel : Bool) (s : RunState σ) :
    Quiet host s (ownPart host name task topLevel baseline s) := by
  unfold ownPart
  refine (ownStep_quiet _ s fun hc => hc.evaluate name _).andThen fun s₁ _ => ?_
  cases task.run with
  | none => exact quiet_ok ⟨rfl, rfl, rfl⟩
  | some run =>
      refine (ownStep_quiet _ s₁ fun hc => hc.overrides).andThen fun s₂ _ => ?_
      refine (stopIfSignalled_quiet hb name s₂).andThen fun s₃ _ => ?_
      exact ownStep_quiet _ s₃ fun hc => hc.execute name topLevel _

end steps

/-! ### One induction over the run -/

/-- What a successful part of a run does to the books: the executed tasks grow by a walk over
`todo`, and each task added had its own part run, successfully, in that order. -/
structure Advance {σ : Type} (succ : String → List String) (todo : List String)
    (s s' : RunState σ) : Prop where
  walk : Walk succ s.executed todo s'.executed
  inProgress : s'.inProgress = s.inProgress
  bodies : ∃ new, s'.executed = s.executed ++ new ∧
    s'.bodies = s.bodies ++ new.map fun name => (name, true)

/-- A run over `todo` advances, or fails for a reason of its own. -/
def Progress {σ : Type} (succ : String → List String) (host : Host σ) (todo : List String)
    (s : RunState σ) (out : Outcome σ) : Prop :=
  (out.1 = .ok () → Advance succ todo s out.2) ∧
    ∀ e, out.1 = .error e → Benign e ∧ ¬ host.Calm

section induction

variable {σ : Type} {host : Host σ} {succ : String → List String}

theorem Advance.nil {s s' : RunState σ} (h : SameBooks s s') : Advance succ [] s s' := by
  refine ⟨?_, h.2.1, [], by simpa using h.1, by simpa using h.2.2⟩
  rw [h.1]
  exact .nil _

theorem Advance.skip {s : RunState σ} {name : String} (h : name ∈ s.executed) :
    Advance succ [name] s s :=
  ⟨.skip h (.nil _), rfl, [], by simp, by simp⟩

theorem Advance.append {l r : List String} {s s' s'' : RunState σ} (h : Advance succ l s s')
    (h' : Advance succ r s' s'') : Advance succ (l ++ r) s s'' := by
  obtain ⟨new, hnew, hbodies⟩ := h.bodies
  obtain ⟨new', hnew', hbodies'⟩ := h'.bodies
  refine ⟨h.walk.append h'.walk, h'.inProgress.trans h.inProgress, new ++ new', ?_, ?_⟩
  · rw [hnew', hnew, List.append_assoc]
  · rw [hbodies', hbodies, List.append_assoc, List.map_append]

theorem Quiet.progress {s : RunState σ} {out : Outcome σ} (h : Quiet host s out) :
    Progress succ host [] s out :=
  ⟨fun _ => .nil h.1, h.2⟩

theorem Progress.andThen {l r : List String} {s : RunState σ} {x : Outcome σ}
    {f : RunState σ → Outcome σ} (hx : Progress succ host l s x)
    (hf : ∀ s', Advance succ l s s' → Progress succ host r s' (f s')) :
    Progress succ host (l ++ r) s (andThen x f) := by
  obtain ⟨result, s'⟩ := x
  cases result with
  | error e => exact ⟨fun h => (by cases h), hx.2⟩
  | ok u =>
      have hadv := hx.1 rfl
      obtain ⟨hok, herr⟩ := hf s' hadv
      exact ⟨fun h => hadv.append (hok h), herr⟩

/-- The prerequisite loop, given what each prerequisite's own run does while the tasks in
progress are `path`. -/
theorem runPrerequisites_progress {runScoped : String → RunState σ → Outcome σ} {baseline : ℕ}
    (hb : Baseline host baseline) {path : List String} (names : List String)
    (hrun : ∀ name ∈ names, ∀ s : RunState σ, s.inProgress = path →
      Progress succ host [name] s (runScoped name s))
    (s : RunState σ) (hs : s.inProgress = path) :
    Progress succ host names s (runPrerequisites host runScoped baseline names s) := by
  induction names generalizing s with
  | nil => exact (quiet_ok ⟨rfl, rfl, rfl⟩).progress
  | cons name names ih =>
      have hcheck : Progress succ host [] s (if name ∈ s.executed then (.ok (), s)
          else stopIfSignalled host baseline name s) := by
        split_ifs
        · exact (quiet_ok ⟨rfl, rfl, rfl⟩).progress
        · exact (stopIfSignalled_quiet hb name s).progress
      unfold runPrerequisites
      apply hcheck.andThen (l := []) (r := name :: names)
      intro s₁ h₁
      have hs₁ : s₁.inProgress = path := h₁.inProgress.trans hs
      apply (hrun name (by simp) s₁ hs₁).andThen (l := [name]) (r := names)
      intro s₂ h₂
      exact ih (fun n hn => hrun n (by simp [hn])) s₂ (h₂.inProgress.trans hs₁)

/-- The own part of `name` after its prerequisites: it changes nothing but the record of bodies. -/
theorem runOwnPart_books {baseline : ℕ} (hb : Baseline host baseline) (name : String) (task : Task)
    (topLevel : Bool) (s : RunState σ) :
    let out := runOwnPart host name task topLevel baseline s
    (out.1 = .ok () → out.2.executed = s.executed ∧ out.2.inProgress = s.inProgress ∧
        out.2.bodies = s.bodies ++ [(name, true)]) ∧
      ∀ e, out.1 = .error e → Benign e ∧ ¬ host.Calm := by
  obtain ⟨hsame, herr⟩ := ownPart_quiet hb name task topLevel s
  unfold runOwnPart
  rcases hout : ownPart host name task topLevel baseline s with ⟨result, s'⟩
  rw [hout] at hsame herr
  obtain ⟨he, hp, hbodies⟩ := hsame
  dsimp only at he hp hbodies herr ⊢
  refine ⟨?_, herr⟩
  rintro rfl
  exact ⟨he, hp, by rw [hbodies]; rfl⟩

end induction

section outcome

variable {σ : Type} {regex : RegexCrate} {tasks : Tasks} {skip : Bool} {host : Host σ}

/-- The list that `run_task_internal` reads. -/
theorem runTaskInternal_eq (runScoped : String → RunState σ → Outcome σ) (requested name : String)
    (topLevel : Bool) (task : Task) (s : RunState σ)
    (htop : (topLevel && skip) = true ↔ (skip = true ∧ name = requested))
    (hs : ResolvesFor regex tasks requested skip name) (ht : tasks.get? name = some task) :
    runTaskInternal regex tasks skip host runScoped name topLevel s =
      andThen (runPrerequisites host runScoped (host.count s.world).1
        (readPrerequisites regex tasks requested skip name)
        { s with world := (host.count s.world).2 })
        (runOwnPart host name task topLevel (host.count s.world).1) := by
  have hfind : findTask tasks name topLevel = .ok task := (findTask_eq_ok tasks).mpr ht
  unfold runTaskInternal
  rw [hfind]
  dsimp only
  by_cases hskip : skip = true ∧ name = requested
  · rw [if_pos (htop.mpr hskip)]
    unfold readPrerequisites
    rw [if_pos hskip]
  · have hresolves := hs.expands hskip
    rw [if_neg (fun h => hskip (htop.mp h))]
    unfold readPrerequisites
    rw [if_neg hskip]
    cases hp : task.prerequisites with
    | none =>
        rw [prerequisitesOf_none ht hp]
    | some prerequisites =>
        obtain ⟨names, hnames⟩ := hresolves.expands task prerequisites ht hp
        rw [prerequisitesOf_some ht hp hnames]
        dsimp only
        rw [hnames]

/-- A task whose prerequisites progress: they are walked, then its own part is recorded. -/
theorem runTaskInternal_progress {runScoped : String → RunState σ → Outcome σ}
    {requested name : String} {topLevel : Bool} (s : RunState σ)
    (htop : (topLevel && skip) = true ↔ (skip = true ∧ name = requested))
    (hs : ResolvesFor regex tasks requested skip name)
    (hrun : ∀ p ∈ readPrerequisites regex tasks requested skip name, ∀ s' : RunState σ,
      s'.inProgress = s.inProgress →
      Progress (readPrerequisites regex tasks requested skip) host [p] s' (runScoped p s')) :
    let out := runTaskInternal regex tasks skip host runScoped name topLevel s
    (out.1 = .ok () → ∃ s₁ : RunState σ,
      Advance (readPrerequisites regex tasks requested skip)
        (readPrerequisites regex tasks requested skip name) s s₁ ∧
      out.2.executed = s₁.executed ∧ out.2.inProgress = s₁.inProgress ∧
      out.2.bodies = s₁.bodies ++ [(name, true)]) ∧
      ∀ e, out.1 = .error e → Benign e ∧ ¬ host.Calm := by
  obtain ⟨task, ht⟩ := hs.exists_task
  have hbase := baseline_of_count host s.world
  have hpre := runPrerequisites_progress hbase _ hrun { s with world := (host.count s.world).2 } rfl
  dsimp only
  rw [runTaskInternal_eq _ requested name topLevel task _ htop hs ht]
  rcases hout : runPrerequisites host runScoped (host.count s.world).1
    (readPrerequisites regex tasks requested skip name)
    { s with world := (host.count s.world).2 } with ⟨e | u, s₁⟩
  · rw [hout] at hpre
    exact ⟨fun h => (by cases h), hpre.2⟩
  · rw [hout] at hpre
    have hown := runOwnPart_books hbase name task topLevel s₁
    have hadv := hpre.1 rfl
    refine ⟨fun h => ⟨s₁, ⟨hadv.walk, hadv.inProgress, hadv.bodies⟩, hown.1 h⟩, hown.2⟩

/-- A task that leads back to itself is not among those its own walk adds. -/
theorem not_mem_of_walk {succ : String → List String} {name : String} {done mid : List String}
    (hacyclic : ¬ Relation.TransGen (Edge succ) name name) (hdone : name ∉ done)
    (h : Walk succ done (succ name) mid) : name ∉ mid := by
  intro hmem
  obtain ⟨new, rfl, hnew⟩ := h.exists_new
  rcases List.mem_append.mp hmem with hmem | hmem
  · exact hdone hmem
  · obtain ⟨p, hp, hr⟩ := hnew name hmem
    exact hacyclic (Relation.TransGen.head' hp hr)

/-- One call of `run_task_scoped` for a sound task off the path, given the calls it makes. -/
theorem runTaskScoped_step {fuel : ℕ} {requested name : String} {topLevel : Bool} {s : RunState σ}
    (htop : (topLevel && skip) = true ↔ (skip = true ∧ name = requested))
    (hs : Sound (ResolvesFor regex tasks requested skip)
      (readPrerequisites regex tasks requested skip) name)
    (hpath : name ∉ s.inProgress)
    (hrun : ∀ p ∈ readPrerequisites regex tasks requested skip name, ∀ s' : RunState σ,
      s'.inProgress = s.inProgress ++ [name] →
      Progress (readPrerequisites regex tasks requested skip) host [p] s'
        (runTaskScoped regex tasks skip host fuel p false s')) :
    Progress (readPrerequisites regex tasks requested skip) host [name] s
      (runTaskScoped regex tasks skip host (fuel + 1) name topLevel s) := by
  rw [runTaskScoped]
  by_cases hdone : name ∈ s.executed
  · rw [if_pos hdone]
    exact ⟨fun _ => .skip hdone, fun e he => (by cases he)⟩
  rw [if_neg hdone, if_neg hpath]
  dsimp only
  have hinner := runTaskInternal_progress { s with inProgress := s.inProgress ++ [name] }
    htop hs.ok hrun
  generalize runTaskInternal regex tasks skip host
    (fun prerequisite => runTaskScoped regex tasks skip host fuel prerequisite false) name topLevel
    { s with inProgress := s.inProgress ++ [name] } = out at hinner ⊢
  obtain ⟨e | u, s₂⟩ := out
  · exact ⟨fun h => (by cases h), hinner.2⟩
  refine ⟨fun _ => ?_, fun e he => (by cases he)⟩
  obtain ⟨s₁, hadv, hexec, hprog, hbodies⟩ := hinner.1 rfl
  obtain ⟨new, hnew, hbodies'⟩ := hadv.bodies
  have hfresh : name ∉ s₁.executed :=
    not_mem_of_walk (hs.2 name Relation.ReflTransGen.refl) hdone hadv.walk
  have hfilter : s.inProgress.filter (fun n => n ≠ name) = s.inProgress := by
    rw [List.filter_eq_self]
    intro n hn
    simp only [ne_eq, decide_not, Bool.not_eq_eq_eq_not, Bool.not_true, decide_eq_false_iff_not]
    rintro rfl
    exact hpath hn
  unfold leaveScope
  dsimp only at hexec hprog hbodies hnew hbodies' ⊢
  refine ⟨.visit hdone hfresh hadv.walk ?_, ?_, new ++ [name], ?_, ?_⟩
  · rw [hexec]
    exact .nil _
  · rw [hprog, hadv.inProgress, List.filter_append, hfilter]
    simp
  · rw [hexec, hnew, List.append_assoc]
  · rw [hbodies, hbodies', List.append_assoc, List.map_append]
    rfl

/-- The whole run of a sound task: every task in progress leads to it, so the run meets none of
them again, and they are distinct tasks, so the bound is never reached. -/
theorem runTaskScoped_progress (fuel : ℕ) (requested name : String) (s : RunState σ)
    (hs : Sound (Resolves regex tasks) (prerequisitesOf regex tasks) name)
    (hpath : ∀ p ∈ s.inProgress, Relation.TransGen (Edge (prerequisitesOf regex tasks)) p name)
    (hkeys : ∀ p ∈ s.inProgress, p ∈ tasks.keys) (hnodup : s.inProgress.Nodup)
    (hfuel : tasks.entries.length < fuel + s.inProgress.length) (topLevel : Bool) :
    Progress (prerequisitesOf regex tasks) host [name] s
      (runTaskScoped regex tasks false host fuel name topLevel s) := by
  induction fuel generalizing name s topLevel with
  | zero =>
      have := (List.subperm_of_subset hnodup hkeys).length_le
      simp only [Tasks.keys, List.length_map] at this
      omega
  | succ fuel ih =>
      have hfree : name ∉ s.inProgress := fun h =>
        hs.2 name Relation.ReflTransGen.refl (hpath name h)
      obtain ⟨task, ht⟩ := hs.ok.exists_task
      rw [← readPrerequisites_keep regex tasks requested]
      apply runTaskScoped_step (by simp) _ hfree
      · intro p hp s' hs'
        rw [readPrerequisites_keep] at hp ⊢
        apply ih p s' (hs.of_edge hp)
        · intro q hq
          rw [hs', List.mem_append, List.mem_singleton] at hq
          rcases hq with hq | rfl
          · exact (hpath q hq).tail hp
          · exact Relation.TransGen.single hp
        · intro q hq
          rw [hs', List.mem_append, List.mem_singleton] at hq
          rcases hq with hq | rfl
          · exact hkeys q hq
          · exact Tasks.mem_keys_of_get? ht
        · rw [hs']
          exact List.nodup_append.mpr ⟨hnodup, List.nodup_singleton _, by
            rintro a ha b hb rfl
            rw [List.mem_singleton.mp hb] at ha
            exact hfree ha⟩
        · rw [hs', List.length_append, List.length_singleton]
          omega
      · rw [readPrerequisites_keep, resolvesFor_keep]
        exact hs

/-- After a successful pre-check the run walks the requested task, or fails on its own account. -/
theorem runTaskScoped_of_check (host : Host σ) (requested : String) (skip : Bool) (world : σ)
    (h : checkPrerequisites regex tasks requested skip = .ok ()) :
    Progress (readPrerequisites regex tasks requested skip) host [requested] (.initial world)
      (runTaskScoped regex tasks skip host (tasks.entries.length + 1) requested true
        (.initial world)) := by
  have hs := (checkPrerequisites_ok_iff regex tasks requested skip).mp h
  cases skip with
  | true =>
      apply runTaskScoped_step (by simp) hs (by simp [RunState.initial])
      intro p hp
      simp [readPrerequisites] at hp
  | false =>
      rw [readPrerequisites_keep]
      rw [readPrerequisites_keep, resolvesFor_keep] at hs
      exact runTaskScoped_progress _ requested requested _ hs (by simp [RunState.initial])
        (by simp [RunState.initial]) (by simp [RunState.initial])
        (by simp only [RunState.initial, List.length_nil]; omega) true

end outcome

/-! ### A failure is the last thing run -/

/-- From a state in which every own part succeeded: at most the last of those recorded failed,
and none did if the outcome is a success. -/
def FailsLast {σ : Type} (s : RunState σ) (out : Outcome σ) : Prop :=
  (∀ b ∈ s.bodies, b.2 = true) →
    (out.1 = .ok () → ∀ b ∈ out.2.bodies, b.2 = true) ∧ ∀ b ∈ out.2.bodies.dropLast, b.2 = true

section failure

variable {σ : Type} {host : Host σ}

theorem failsLast_of_bodies {s : RunState σ} {out : Outcome σ} (h : out.2.bodies = s.bodies) :
    FailsLast s out := by
  intro hs
  rw [h]
  exact ⟨fun _ => hs, fun b hb => hs b (List.mem_of_mem_dropLast hb)⟩

theorem FailsLast.andThen {s : RunState σ} {x : Outcome σ} {f : RunState σ → Outcome σ}
    (hx : FailsLast s x) (hf : ∀ s', FailsLast s' (f s')) : FailsLast s (andThen x f) := by
  obtain ⟨e | u, s'⟩ := x
  · exact hx
  · intro hs
    exact hf s' ((hx hs).1 rfl)

theorem runPrerequisites_failsLast {runScoped : String → RunState σ → Outcome σ} {baseline : ℕ}
    (hb : Baseline host baseline) (hrun : ∀ name s, FailsLast s (runScoped name s))
    (names : List String) (s : RunState σ) :
    FailsLast s (runPrerequisites host runScoped baseline names s) := by
  induction names generalizing s with
  | nil => exact failsLast_of_bodies rfl
  | cons name names ih =>
      unfold runPrerequisites
      refine FailsLast.andThen ?_ fun s₁ => (hrun name s₁).andThen ih
      split_ifs
      · exact failsLast_of_bodies rfl
      · exact failsLast_of_bodies (stopIfSignalled_quiet hb name s).1.2.2

theorem runOwnPart_failsLast {baseline : ℕ} (hb : Baseline host baseline) (name : String)
    (task : Task) (topLevel : Bool) (s : RunState σ) :
    FailsLast s (runOwnPart host name task topLevel baseline s) := by
  have hbodies := (ownPart_quiet hb name task topLevel s).1.2.2
  unfold runOwnPart
  generalize ownPart host name task topLevel baseline s = out at hbodies ⊢
  obtain ⟨result, s'⟩ := out
  intro hs
  dsimp only
  rw [hbodies, List.dropLast_concat]
  refine ⟨?_, hs⟩
  rintro rfl b hb
  rcases List.mem_append.mp hb with hb | hb
  · exact hs b hb
  · rw [List.mem_singleton.mp hb]
    rfl

theorem runTaskScoped_failsLast (regex : RegexCrate) (tasks : Tasks) (skip : Bool) (fuel : ℕ)
    (name : String) (topLevel : Bool) (s : RunState σ) :
    FailsLast s (runTaskScoped regex tasks skip host fuel name topLevel s) := by
  induction fuel generalizing name topLevel s with
  | zero => exact failsLast_of_bodies rfl
  | succ fuel ih =>
      have hinner : ∀ s, FailsLast s (runTaskInternal regex tasks skip host
          (fun prerequisite => runTaskScoped regex tasks skip host fuel prerequisite false)
          name topLevel s) := by
        intro s
        have hbase := baseline_of_count host s.world
        unfold runTaskInternal
        split
        · exact failsLast_of_bodies rfl
        · dsimp only
          split
          · exact failsLast_of_bodies rfl
          · apply FailsLast.andThen _ fun s' => runOwnPart_failsLast hbase name _ topLevel s'
            exact runPrerequisites_failsLast hbase (fun name s => ih name false s) _
              { s with world := (host.count s.world).2 }
      rw [runTaskScoped]
      split_ifs
      · exact failsLast_of_bodies rfl
      · exact failsLast_of_bodies rfl
      · intro hs
        have h := hinner { s with inProgress := s.inProgress ++ [name] } hs
        dsimp only
        generalize runTaskInternal regex tasks skip host _ name topLevel _ = out at h ⊢
        obtain ⟨e | u, s'⟩ := out
        · exact h
        · exact h

theorem runTask_failsLast (host : Host σ) (regex : RegexCrate) (tasks : Tasks) (skip : Bool)
    (requested : String) (world : σ) :
    FailsLast (.initial world) (runTask regex tasks skip host requested world) := by
  unfold runTask
  split
  · exact failsLast_of_bodies rfl
  · apply (runTaskScoped_failsLast regex tasks skip _ requested true _).andThen
    intro s
    unfold ownStep
    split
    · exact failsLast_of_bodies rfl
    · exact failsLast_of_bodies rfl

end failure

/-! ### A concrete request

`ci` runs `build` and then every `lint:` task; `build` needs one of them already. -/

/-- Whether a source of literals, escaped characters and `.*` matches a whole text. -/
def globMatches : Text → Text → Bool
  | [], text => text.isEmpty
  | '.' :: '*' :: source, text => text.tails.any (globMatches source)
  | '\\' :: c :: source, d :: text => c == d && globMatches source text
  | c :: source, d :: text => c == d && globMatches source text
  | _ :: _, [] => false

/-- The crate, on the anchored sources that `wildcard_to_regex` builds. -/
def globRegex : RegexCrate where
  escape segment := String.ofList (segment.toList.flatMap fun c =>
    if c ∈ "\\.+*?()|[]\x7b\x7d^$#&-~".toList then ['\\', c] else [c])
  new source := some fun name => globMatches (source.toList.drop 1).dropLast name.toList

/-- The tasks of the example. -/
def ciTasks : Tasks where
  entries := [("ci", ⟨none, some ["build", "lint:*"], none⟩),
    ("lint:rust", ⟨some ⟨"toolbox"⟩, none, none⟩),
    ("lint:docs", ⟨some ⟨"toolbox"⟩, none, none⟩),
    ("build", ⟨some ⟨"toolbox"⟩, some ["lint:rust"], none⟩)]
  nodup := by decide

/-- A host on which everything succeeds and no signal arrives. -/
def calmHost : Host Unit where
  count w := (0, w)
  lastSignal _ := .interrupt
  evaluate _ w := (.ok (), w)
  checkImageOverrides := .ok ()
  execute _ _ w := (.ok (), w)
  checkImageTags _ := .ok ()

theorem calmHost_calm : calmHost.Calm :=
  ⟨⟨0, fun _ => rfl⟩, fun _ _ => rfl, rfl, fun _ _ _ => rfl⟩

/-! ### The pre-check and the run agree -/

section agreement

variable (regex : RegexCrate) (tasks : Tasks)

/-- What one entry of a prerequisite list stands for: itself, or the sorted names that its
wildcard matches. -/
def EntryNames (pattern : String) (part : List String) : Prop :=
  ('*' ∉ pattern.toList ∧ part = [pattern]) ∨
  ('*' ∈ pattern.toList ∧ part.Pairwise (· ≤ ·) ∧ ∃ isMatch,
    wildcardToRegex regex pattern = .ok isMatch ∧
    ∀ name, name ∈ part ↔ name ∈ tasks.keys ∧ isMatch name = true)

theorem expand_cons (pattern : String) (patterns names : List String) :
    expandPrerequisiteWildcards regex tasks (pattern :: patterns) = .ok names →
      ∃ part rest, EntryNames regex tasks pattern part ∧
        expandPrerequisiteWildcards regex tasks patterns = .ok rest ∧ names = part ++ rest := by
  intro h
  unfold expandPrerequisiteWildcards at h
  obtain ⟨part, hpart, h⟩ := Except.bind_eq_ok.mp h
  obtain ⟨rest, hrest, h⟩ := Except.bind_eq_ok.mp h
  refine ⟨part, rest, ?_, hrest, (Except.ok.inj h).symm⟩
  unfold expandEntry at hpart
  split_ifs at hpart with hstar
  · obtain ⟨isMatch, hm, hpart⟩ := Except.bind_eq_ok.mp hpart
    obtain rfl := Except.ok.inj hpart
    refine .inr ⟨hstar, List.pairwise_insertionSort _ _, isMatch, hm, fun name => ?_⟩
    rw [List.mem_insertionSort, List.mem_filter]
  · exact .inl ⟨hstar, (Except.ok.inj hpart).symm⟩

/-- An expanded list is the names of its entries, in the order of the entries. -/
theorem expand_entries (patterns names : List String)
    (h : expandPrerequisiteWildcards regex tasks patterns = .ok names) :
    ∃ parts, List.Forall₂ (EntryNames regex tasks) patterns parts ∧ names = parts.flatten := by
  induction patterns generalizing names with
  | nil =>
      obtain rfl := Except.ok.inj h
      exact ⟨[], .nil, rfl⟩
  | cons pattern patterns ih =>
      obtain ⟨part, rest, hpart, hrest, rfl⟩ := expand_cons regex tasks pattern patterns names h
      obtain ⟨parts, hparts, rfl⟩ := ih rest hrest
      exact ⟨part :: parts, .cons hpart hparts, rfl⟩

/-- Where every wildcard compiles, every list expands. -/
theorem expand_of_compiles
    (hregex : ∀ pattern, ∃ isMatch, wildcardToRegex regex pattern = .ok isMatch)
    (patterns : List String) :
    ∃ names, expandPrerequisiteWildcards regex tasks patterns = .ok names := by
  induction patterns with
  | nil => exact ⟨[], rfl⟩
  | cons pattern patterns ih =>
      obtain ⟨names, hnames⟩ := ih
      obtain ⟨isMatch, hm⟩ := hregex pattern
      have hentry : ∃ part, expandEntry regex tasks pattern = .ok part := by
        unfold expandEntry
        split_ifs
        · exact ⟨_, Except.bind_eq_ok.mpr ⟨isMatch, hm, rfl⟩⟩
        · exact ⟨[pattern], rfl⟩
      obtain ⟨part, hpart⟩ := hentry
      exact ⟨part ++ names, Except.bind_eq_ok.mpr
        ⟨part, hpart, Except.bind_eq_ok.mpr ⟨names, hnames, rfl⟩⟩⟩

theorem resolvesFor_iff_exists
    (hregex : ∀ pattern, ∃ isMatch, wildcardToRegex regex pattern = .ok isMatch)
    (requested : String) (skip : Bool) (name : String) :
    ResolvesFor regex tasks requested skip name ↔ ∃ task, tasks.get? name = some task := by
  refine ⟨fun h => h.exists_task, fun h => ⟨h, fun _ => ⟨h, ?_⟩⟩⟩
  intro task prerequisites _ _
  exact expand_of_compiles regex tasks hregex prerequisites

theorem runTask_error_benign {σ : Type} (host : Host σ) (world : σ) (requested : String)
    (skip : Bool) (h : checkPrerequisites regex tasks requested skip = .ok ()) (e : TaskError)
    (he : (runTask regex tasks skip host requested world).1 = .error e) : Benign e := by
  have hprogress := runTaskScoped_of_check host requested skip world h
  unfold runTask at he
  rw [h] at he
  dsimp only at he
  generalize runTaskScoped regex tasks skip host _ requested true _ = out at hprogress he
  obtain ⟨e' | u, s⟩ := out
  · obtain rfl := Except.error.inj he
    exact (hprogress.2 _ rfl).1
  · simp only [andThen, ownStep] at he
    split at he
    · cases he
    · exact .inr ⟨_, (Except.error.inj he).symm⟩

/-- `check_prerequisites` accepts a request exactly when the requested task exists, every task it
reaches exists (and has a list that expands, which is every list if the wildcards compile) and no
cycle can be reached; a run after it fails for no such reason. -/
theorem checkPrerequisites_exact (requested : String) (skip : Bool) :
    (checkPrerequisites regex tasks requested skip = .ok () ↔
      (∃ task, tasks.get? requested = some task) ∧
      (∀ name, Reaches (readPrerequisites regex tasks requested skip) requested name →
        ResolvesFor regex tasks requested skip name) ∧
      ∀ name, Reaches (readPrerequisites regex tasks requested skip) requested name →
        ¬ Relation.TransGen (Edge (readPrerequisites regex tasks requested skip)) name name) ∧
    ((∀ pattern, ∃ isMatch, wildcardToRegex regex pattern = .ok isMatch) →
      (checkPrerequisites regex tasks requested skip = .ok () ↔
        (∃ task, tasks.get? requested = some task) ∧
        (∀ name, Reaches (readPrerequisites regex tasks requested skip) requested name →
          ∃ task, tasks.get? name = some task) ∧
        ∀ name, Reaches (readPrerequisites regex tasks requested skip) requested name →
          ¬ Relation.TransGen (Edge (readPrerequisites regex tasks requested skip)) name name)) ∧
    (checkPrerequisites regex tasks requested skip = .ok () →
      ∀ (σ : Type) (host : Host σ) (world : σ) (e : TaskError),
        (runTask regex tasks skip host requested world).1 = .error e →
        (∃ signal, e = .interrupted signal) ∨ ∃ message, e = .body message) := by
  have hiff := checkPrerequisites_ok_iff regex tasks requested skip
  refine ⟨?_, ?_, ?_⟩
  · rw [hiff]
    exact ⟨fun h => ⟨h.ok.exists_task, h.1, h.2⟩, fun h => ⟨h.2.1, h.2.2⟩⟩
  · intro hregex
    have hres := resolvesFor_iff_exists regex tasks hregex requested skip
    rw [hiff]
    constructor
    · intro h
      exact ⟨h.ok.exists_task, fun name hr => (h.1 name hr).exists_task, h.2⟩
    · rintro ⟨_, hexists, hacyclic⟩
      exact ⟨fun name hr => (hres name).mpr (hexists name hr), hacyclic⟩
  · intro h σ host world e he
    exact runTask_error_benign regex tasks host world requested skip h e he

theorem checkPrerequisites_exact_ci :
    checkPrerequisites globRegex ciTasks "ci" false = .ok () ∧
      ∀ name, Reaches (readPrerequisites globRegex ciTasks "ci" false) "ci" name →
        ∃ task, ciTasks.get? name = some task := by
  have hcheck : checkPrerequisites globRegex ciTasks "ci" false = .ok () := rfl
  have hiff := (checkPrerequisites_exact globRegex ciTasks "ci" false).2.1 fun pattern => ⟨_, rfl⟩
  exact ⟨hcheck, (hiff.mp hcheck).2.1⟩

/-- What a calm run after a successful pre-check leaves: the walk over the requested task. -/
theorem runTask_walk {σ : Type} (host : Host σ) (hcalm : host.Calm) (world : σ)
    (requested : String) (skip : Bool)
    (h : checkPrerequisites regex tasks requested skip = .ok ()) :
    let s := (runTask regex tasks skip host requested world).2
    Walk (readPrerequisites regex tasks requested skip) [] [requested] s.executed ∧
      s.bodies = s.executed.map fun name => (name, true) := by
  have hprogress := runTaskScoped_of_check host requested skip world h
  unfold runTask
  rw [h]
  dsimp only
  generalize runTaskScoped regex tasks skip host _ requested true _ = out at hprogress ⊢
  obtain ⟨e | u, s⟩ := out
  · exact absurd hcalm (hprogress.2 e rfl).2
  · obtain ⟨hwalk, _, new, hnew, hbodies⟩ := hprogress.1 rfl
    simp only [RunState.initial, List.nil_append] at hwalk hnew hbodies
    have hkeep : SameBooks s (ownStep (fun w => (host.checkImageTags w, w)) s).2 := by
      unfold ownStep
      split
      · exact ⟨rfl, rfl, rfl⟩
      · exact ⟨rfl, rfl, rfl⟩
    dsimp only [andThen]
    rw [hkeep.1, hkeep.2.2]
    exact ⟨hwalk, by rw [hbodies, hnew]⟩

end agreement

end Ratect
