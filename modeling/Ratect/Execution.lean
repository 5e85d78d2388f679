import Ratect.StartupScripts

/-! # One task execution

The whole `execution` future of `run_task_internal`: the start-up (`Startup`), then `run_container`
for the task's own container and, beside it, that container's readiness gate
(`run_task_container_readiness`), which only the Batect-compatible dialect has.  A signal may end
it at any moment.

The main results are about every run of it: what has been started, created and run has what it
needs (`execution_gated`), and the permits bound the calls that are awaited and never block the
start-up (`Runs.unblocked`).  What a failure does to both is in `FailFast`. -/

namespace Ratect

open Fanout (State Event Status InFlight Moves)
open Transition (Reachable)

/-! ### The task's own container -/

/-- The readiness gate of the task's own container, once that is running. -/
inductive Gate where
  | off
  | health
  | permit (index : ℕ)
  | exec (index : ℕ)
  | passed
deriving DecidableEq, Repr

/-- Where the execution is: in the start-up, waiting for `run_container` to start the container,
running it with its gate, asking whether a container whose gate failed still runs, waiting for the
run's own result for a moment or until it comes, ended. -/
inductive Phase where
  | startup
  | starting
  | running (gate : Gate)
  | verdict
  | grace
  | draining
  | ended (ok : Bool)
deriving DecidableEq, Repr

/-- An execution, with whether `run_container` has been issued. -/
structure Execution where
  startup : State Cell Request Answer
  phase : Phase
  runIssued : Bool

/-- What can happen next in an execution. -/
inductive ExecutionEvent where
  | startup (e : Event Cell Answer)
  | runContainer
  | startRefused
  | started
  | healthy (ok : Bool)
  | granted
  | execAnswered (ok : Bool)
  | stillRunning (running : Bool)
  | graceOver
  | exited (ok : Bool)
  | interrupted
deriving DecidableEq, Repr

section execution

variable (settings : Settings) (fast : ℕ → Bool)

/-- The setup commands of the task's own container. -/
def rootSetupCommands : List SetupCommand :=
  match settings.containers.get? settings.root with
  | some container => container.setupCommands.getD []
  | none => []

/-- `run_setup_commands` of the gate, at a command: a `run_in` target that is no dependency fails
it, and a command waits for its permit. -/
def nextSetup (index : ℕ) : Phase :=
  match (rootSetupCommands settings)[index]? with
  | none => .running .passed
  | some command =>
      match command.runIn.filter fun target => target ≠ settings.root with
      | some target =>
          if target ∈ settings.graph.get settings.root then .running (.permit index) else .verdict
      | none => .running (.permit index)

/-- The phase after an event of the task's own container, where it can happen. -/
def nextPhase (permit : Bool) : Phase → ExecutionEvent → Option Phase
  | .starting, .startRefused => some (.ended false)
  | .starting, .started =>
      some (.running (if settings.taskContainerReadinessGate then .health else .off))
  | .running .health, .healthy true => some (nextSetup settings 0)
  | .running .health, .healthy false => some .verdict
  | .running (.permit index), .granted => if permit then some (.running (.exec index)) else none
  | .running (.exec index), .execAnswered true => some (nextSetup settings (index + 1))
  | .running (.exec _), .execAnswered false => some .verdict
  | .running _, .exited ok => some (.ended ok)
  | .verdict, .stillRunning true => some .grace
  | .verdict, .stillRunning false => some .draining
  | .grace, .graceOver => some (.ended false)
  | .grace, .exited ok => some (.ended ok)
  | .draining, .exited ok => some (.ended ok)
  | _, _ => none

/-- One step of an execution. -/
def Execution.step (x : Execution) : ExecutionEvent → Option Execution
  | .startup e =>
      match x.phase with
      | .startup => (Fanout.step (startupSystem settings fast) x.startup e).map fun s =>
          { x with startup := s }
      | _ => none
  | .runContainer =>
      if x.phase = .startup ∧ x.startup.isOk .execution = true then
        some { x with phase := .starting, runIssued := true }
      else none
  | .interrupted =>
      match x.phase with
      | .ended _ => none
      | _ => some { x with phase := .ended false }
  | e =>
      (nextPhase settings (Fanout.permitFree (startupSystem settings fast) x.startup) x.phase e).map
      fun phase => { x with phase := phase }

/-- The pulls and builds that an earlier task of the invocation left. -/
def imagesBefore (pulled : List (String × ImagePullPolicy)) (built : List String) : Cell → Bool
  | .pull image policy => decide ((image, policy) ∈ pulled)
  | .built name => decide (name ∈ built)
  | _ => false

/-- An execution at its start. -/
def Execution.initial (pulled : List (String × ImagePullPolicy))
    (built : List String) : Execution where
  startup := Fanout.initial (startupSystem settings fast) (imagesBefore pulled built)
  phase := .startup
  runIssued := false

/-- The states of every run of an execution. -/
def Runs (pulled : List (String × ImagePullPolicy)) (built : List String) : Execution → Prop :=
  Reachable (Execution.step settings fast) (Execution.initial settings fast pulled built)

end execution

/-! ### What a step can do -/

section steps

variable {settings : Settings} {fast : ℕ → Bool} {x x' : Execution} {e : ExecutionEvent}

/-- A step is one of the start-up, the issue of `run_container` once the start-up has succeeded, or
leaves the start-up as it is. -/
theorem Execution.step_cases (h : Execution.step settings fast x e = some x') :
    (∃ event s, e = .startup event ∧ x.phase = .startup ∧
      Fanout.step (startupSystem settings fast) x.startup event = some s ∧
        x' = { x with startup := s }) ∨
    (e = .runContainer ∧ x.phase = .startup ∧ x.startup.cells .execution = .settled (.ok ()) ∧
      x' = { x with phase := .starting, runIssued := true }) ∨
    (e = .interrupted ∧ x' = { x with phase := .ended false }) ∨
    ∃ phase, nextPhase settings
      (Fanout.permitFree (startupSystem settings fast) x.startup) x.phase e =
      some phase ∧ x' = { x with phase := phase } := by
  unfold Execution.step at h
  split at h
  · split at h
    · next hphase =>
        obtain ⟨s, hs, rfl⟩ := Option.map_eq_some_iff.mp h
        exact .inl ⟨_, s, rfl, hphase, hs, rfl⟩
    · cases h
  · split_ifs at h with hc
    obtain rfl := Option.some.inj h
    exact .inr (.inl ⟨rfl, hc.1, (Fanout.isOk_iff _ _).mp hc.2, rfl⟩)
  · split at h
    · cases h
    · obtain rfl := Option.some.inj h
      exact .inr (.inr (.inl ⟨rfl, rfl⟩))
  · obtain ⟨phase, hp, rfl⟩ := Option.map_eq_some_iff.mp h
    exact .inr (.inr (.inr ⟨phase, hp, rfl⟩))

variable {pulled : List (String × ImagePullPolicy)} {built : List String}

/-- The start-up of an execution runs as the library says. -/
theorem Runs.startup (h : Runs settings fast pulled built x) :
    Reachable (Fanout.step (startupSystem settings fast))
      (Fanout.initial (startupSystem settings fast) (imagesBefore pulled built)) x.startup := by
  refine h.invariant (P := fun x => Reachable (Fanout.step (startupSystem settings fast))
    (Fanout.initial (startupSystem settings fast) (imagesBefore pulled built)) x.startup) .start ?_
  intro x e x' _ hx hstep
  rcases Execution.step_cases hstep with
      ⟨_, s, _, _, hs, rfl⟩ | ⟨_, _, _, rfl⟩ | ⟨_, rfl⟩ | ⟨_, _, rfl⟩
  · exact hx.next hs
  · exact hx
  · exact hx
  · exact hx

/-- The start-up is over only once the execution has ended or its start-up has succeeded. -/
theorem Runs.phase (h : Runs settings fast pulled built x) :
    (x.runIssued = true → x.startup.cells .execution = .settled (.ok ())) ∧
      (x.phase = .startup ∨ x.phase = .ended false ∨
        x.startup.cells .execution = .settled (.ok ())) := by
  refine h.invariant (P := fun x =>
    (x.runIssued = true → x.startup.cells .execution = .settled (.ok ())) ∧
      (x.phase = .startup ∨ x.phase = .ended false ∨
        x.startup.cells .execution = .settled (.ok ()))) ⟨by simp [Execution.initial], .inl rfl⟩ ?_
  intro x e x' _ hx hstep
  obtain ⟨hissued, hphase⟩ := hx
  rcases Execution.step_cases hstep with
      ⟨_, s, _, hstart, hs, rfl⟩ | ⟨_, _, hok, rfl⟩ | ⟨_, rfl⟩ | ⟨phase, hnext, rfl⟩
  · exact ⟨fun hr => Fanout.step_settled hs (hissued hr), .inl hstart⟩
  · exact ⟨fun _ => hok, .inr (.inr hok)⟩
  · exact ⟨hissued, .inr (.inl rfl)⟩
  · refine ⟨hissued, .inr (.inr ?_)⟩
    rcases hphase with hp | hp | hp
    · rw [hp] at hnext
      cases e <;> cases hnext
    · rw [hp] at hnext
      cases e <;> cases hnext
    · exact hp

end steps

/-! ### What a run has done -/

namespace Execution

variable (x : Execution)

/-- The request has been made. -/
def Issued (request : Request) : Prop := ∃ k, (k, request) ∈ x.startup.issued

/-- How often the request has been made. -/
def timesIssued (request : Request) : ℕ := (x.startup.issued.map Prod.snd).count request

/-- The container's image is there. -/
def ImageResolved (name : String) : Prop := x.startup.cells (.image name) = .settled (.ok ())

/-- The container has been created. -/
def Created (name : String) : Prop := x.startup.cells (.created name) = .settled (.ok ())

/-- The container is ready. -/
def Ready (name : String) : Prop := x.startup.cells (.ready name) = .settled (.ok ())

end Execution

section gating

variable {settings : Settings} {fast : ℕ → Bool} {pulled : List (String × ImagePullPolicy)}
  {built : List String} {taskDependencies : Option (List String)} {x : Execution}

/-- What the calls and the successes of the start-up came after. -/
theorem Runs.guarded
    (hgraph : GraphOf settings.containers settings.root taskDependencies settings.graph)
    (h : Runs settings fast pulled built x) :
    Fanout.GuardInv (requestNeeds settings) (cellNeeds settings) (imagesBefore pulled built)
      x.startup :=
  Fanout.reachable_guardInv (fun k => (cellScript_conforms hgraph k).guarded) h.startup

theorem Runs.ready_of_ready
    (hgraph : GraphOf settings.containers settings.root taskDependencies settings.graph)
    (h : Runs settings fast pulled built x) {name dependency : String} (hr : x.Ready name)
    (hd : dependency ∈ settings.graph.get name) : x.Ready dependency := by
  refine (h.guarded hgraph).ended (.ready name) hr rfl (.ready dependency) ?_
  exact List.mem_append_left _ (List.mem_map_of_mem hd)

/-- Whatever is started has all its dependencies ready, at any depth. -/
theorem Runs.ready_of_issued
    (hgraph : GraphOf settings.containers settings.root taskDependencies settings.graph)
    (h : Runs settings fast pulled built x) {name dependency : String}
    (hissued : x.Issued (.startBackgroundContainer name))
    (hd : Relation.TransGen (PostOrder.Edge settings.graph.get) name dependency) :
    x.Ready dependency := by
  obtain ⟨k, hk⟩ := hissued
  induction hd with
  | single hd =>
      refine (h.guarded hgraph).issued k _ hk (.ready _) ?_
      exact List.mem_append_left _ (List.mem_map_of_mem hd)
  | tail _ hd ih => exact h.ready_of_ready hgraph ih hd

/-- A create or a start is made by its own cell only. -/
theorem Runs.madeBy
    (hgraph : GraphOf settings.containers settings.root taskDependencies settings.graph)
    (h : Runs settings fast pulled built x) {k : Cell} {request : Request}
    (hk : (k, request) ∈ x.startup.issued) : request.madeBy k := by
  by_contra hnot
  exact Fanout.issued_avoids ((cellScript_conforms hgraph k).avoids hnot) h.startup hk

/-- Where every join is fail-fast, creates and starts are made once. -/
theorem Runs.timesIssued_le
    (hgraph : GraphOf settings.containers settings.root taskDependencies settings.graph)
    (hfast : ∀ n ≤ settings.graph.keys.length, fast n = true)
    (h : Runs settings fast pulled built x) (name : String) :
    x.timesIssued (.createContainer name) ≤ 1 ∧
      x.timesIssued (.startBackgroundContainer name) ≤ 1 := by
  have hwf := startup_wellFormed hgraph fast
  have hquick := startup_quick hgraph hfast
  constructor
  · have honly : ∀ c, (c, Request.createContainer name) ∈ x.startup.issued → c = .created name :=
      fun c hc => h.madeBy hgraph hc
    unfold Execution.timesIssued
    rw [Fanout.count_request honly]
    exact Fanout.issued_once hwf hquick
      ((cellScript_conforms hgraph (.created name)).once (.inl ⟨name, rfl⟩)) h.startup
  · have honly : ∀ c,
        (c, Request.startBackgroundContainer name) ∈ x.startup.issued → c = .ready name :=
      fun c hc => h.madeBy hgraph hc
    unfold Execution.timesIssued
    rw [Fanout.count_request honly]
    exact Fanout.issued_once hwf hquick
      ((cellScript_conforms hgraph (.ready name)).once (.inr ⟨name, rfl⟩)) h.startup

/-- What a creation waits for, besides the daemon and a permit, is its image and the container whose
network it shares: once these are there, it goes on. -/
theorem Runs.create_goes_on
    (hgraph : GraphOf settings.containers settings.root taskDependencies settings.graph)
    (h : Runs settings fast pulled built x) (hphase : x.phase = .startup) {name : String}
    {container : Container} (hc : settings.containers.get? name = some container)
    {job : Fanout.Job Cell Request Answer} (hjob : x.startup.cells (.created name) = .running job)
    (himage : x.ImageResolved name)
    (htarget : ∀ target, networkTarget container = some target → x.Created target) :
    (∃ request next, job.script = .call request next ∧ job.sent = true) ∨
      (∃ next, job.script = .acquire next ∧
        Fanout.permitFree (startupSystem settings fast) x.startup = false) ∨
      ∃ e x', e.actor = .created name ∧ Execution.step settings fast x (.startup e) = some x' := by
  have hstep : ∀ e s, Fanout.Step (startupSystem settings fast) x.startup e s →
      Execution.step settings fast x (.startup e) = some { x with startup := s } := by
    intro e s hs
    simp only [Execution.step, hphase, Fanout.step_of_cases hs, Option.map_some]
  have hwaits := ((Fanout.reachable_inv (startup_wellFormed hgraph fast) h.startup).job _ _ hjob
    (by simp)).waits
  obtain ⟨stack, script, sent⟩ := job
  cases script with
  | done => cases hwaits
  | fail => cases hwaits
  | release next => cases hwaits
  | call request next =>
      cases sent with
      | true => exact .inl ⟨request, next, rfl, rfl⟩
      | false => exact .inr (.inr ⟨.send _, _, rfl, hstep _ _ (.send hjob)⟩)
  | acquire next =>
      by_cases hfree : Fanout.permitFree (startupSystem settings fast) x.startup = true
      · exact .inr (.inr ⟨.acquire _, _, rfl, hstep _ _ (.acquire hjob hfree)⟩)
      · exact .inr (.inl ⟨next, rfl, by simpa using hfree⟩)
  | join groups next =>
      have hawaits := Fanout.reachable_awaits (cellScript_conforms hgraph) h.startup hjob
      refine .inr (.inr ⟨.resume _, _, rfl, hstep _ _ (.resume hjob fun c hmem => ?_)⟩)
      rcases hawaits.2 c hmem with rfl | ⟨container', target, hc', ht, rfl⟩
      · exact himage
      · rw [hc] at hc'
        obtain rfl := Option.some.inj hc'
        exact htarget target ht

/-- What an execution has done had what it needs, and creations wait for nothing else. -/
structure Gated (settings : Settings) (fast : ℕ → Bool) (x : Execution) : Prop where
  started : ∀ name, x.Issued (.startBackgroundContainer name) →
    (∀ dependency ∈ settings.graph.get name, x.Ready dependency) ∧
    ∀ dependency, Relation.TransGen (PostOrder.Edge settings.graph.get) name dependency →
      x.Ready dependency
  run : x.runIssued = true → (∀ name ∈ settings.graph.keys, x.Created name) ∧
    ∀ dependency ∈ settings.graph.get settings.root, x.Ready dependency
  once : ∀ name, x.timesIssued (.createContainer name) ≤ 1 ∧
    x.timesIssued (.startBackgroundContainer name) ≤ 1
  create : ∀ name container, settings.containers.get? name = some container →
    x.Issued (.createContainer name) → x.ImageResolved name ∧
      ∀ target, networkTarget container = some target → x.Created target
  create_goes_on : ∀ name container job, settings.containers.get? name = some container →
    x.phase = .startup → x.startup.cells (.created name) = .running job → x.ImageResolved name →
    (∀ target, networkTarget container = some target → x.Created target) →
    (∃ request next, job.script = .call request next ∧ job.sent = true) ∨
    (∃ next, job.script = .acquire next ∧
      Fanout.permitFree (startupSystem settings fast) x.startup = false) ∨
    ∃ e x', e.actor = .created name ∧ Execution.step settings fast x (.startup e) = some x'

/-- Start-up gating, in every state of every run whose joins are fail-fast: a container is started
only once its dependencies are ready, the task's own is run only once everything is created and
its dependencies are ready, creates and starts are made once, and a create waits for no more than
its image and the container whose network it shares. -/
theorem execution_gated
    (hbuild : buildDependencyGraph settings.containers settings.root taskDependencies =
      .ok settings.graph)
    (h : Runs settings (fun _ => true) pulled built x) : Gated settings (fun _ => true) x := by
  have hgraph := buildDependencyGraph_spec hbuild
  have hguard := h.guarded hgraph
  refine ⟨fun name hissued => ⟨fun dependency hd => ?_, fun dependency hd => ?_⟩, fun hrun => ?_,
    h.timesIssued_le hgraph (fun _ _ => rfl), fun name container hc hissued => ?_, ?_⟩
  · exact h.ready_of_issued hgraph hissued (.single hd)
  · exact h.ready_of_issued hgraph hissued hd
  · have hended := hguard.ended .execution (h.phase.1 hrun) rfl
    refine ⟨fun name hname => hended (.created name) ?_, fun dependency hd =>
      hended (.ready dependency) ?_⟩
    · exact List.mem_append_left _ (List.mem_map_of_mem (mem_containerNames.mpr hname))
    · exact List.mem_append_right _ (List.mem_map_of_mem hd)
  · obtain ⟨k, hk⟩ := hissued
    have hneeds : ∀ c ∈ createNeeds settings name, x.startup.cells c = .settled (.ok ()) :=
      hguard.issued k _ hk
    simp only [createNeeds, hc] at hneeds
    cases htarget : networkTarget container with
    | none =>
        rw [htarget] at hneeds
        exact ⟨hneeds _ List.mem_cons_self, by simp⟩
    | some target =>
        rw [htarget] at hneeds
        refine ⟨hneeds _ List.mem_cons_self, fun target' heq => ?_⟩
        obtain rfl := Option.some.inj heq
        exact hneeds _ (List.mem_cons_of_mem _ List.mem_cons_self)
  · intro name container job hc hphase hjob himage htarget
    exact h.create_goes_on hgraph hphase hc hjob himage htarget

/-! A task container `app` that depends on `db`, run with one permit. -/

/-- A container of an image. -/
def imageContainer (image : String) (dependencies : List String) : Container where
  dependencies := some dependencies
  image := some image
  imagePullPolicy := none
  buildDirectory := none
  networkMode := none
  setupCommands := none
  runToCompletion := none
  externalHealthCheck := false
  reportsReadinessFor := none
  identity := false
  user := false

def shop : Settings where
  containers :=
    { entries := [("app", imageContainer "alpine" ["db"]), ("db", imageContainer "postgres" [])]
      nodup := by decide
      targets := by simp [imageContainer] }
  graph := [("db", []), ("app", ["db"])]
  root := "app"
  existingNetwork := none
  imageOverrides := fun _ => none
  imageTags := fun _ => none
  maxParallelism := some 1
  taskContainerReadinessGate := false

/-- The creation of a container begins, with the lookup of its image. -/
def lookingUp (name image : String) : List ExecutionEvent :=
  [.startup (.claim .execution (.created name)), .startup (.claim (.created name) (.image name)),
    .startup (.claim (.image name) (.pull image .ifNotPresent)),
    .startup (.send (.pull image .ifNotPresent))]

/-- The image is there, and the create is made. -/
def creating (name image : String) : List ExecutionEvent :=
  [.startup (.answer (.pull image .ifNotPresent) .success), .startup (.resume (.image name)),
    .startup (.resume (.created name)), .startup (.send (.created name)),
    .startup (.answer (.created name) .success), .startup (.acquire (.created name)),
    .startup (.send (.created name))]

/-- A ready dependency's container is created, and its start is made. -/
def starting (name : String) : List ExecutionEvent :=
  [.startup (.answer (.created name) .success), .startup (.resume (.ready name)),
    .startup (.acquire (.ready name)), .startup (.send (.ready name))]

/-- The whole start-up of `app`, and its run. -/
def shopRun : List ExecutionEvent :=
  [.startup (.send .execution), .startup (.answer .execution .success)] ++
    lookingUp "app" "alpine" ++ lookingUp "db" "postgres" ++
    [.startup (.claim .execution (.ready "db")), .startup (.resume (.ready "db"))] ++
    creating "app" "alpine" ++ [.startup (.answer (.created "app") .success)] ++
    creating "db" "postgres" ++ starting "db" ++
    [.startup (.answer (.ready "db") .success), .startup (.send (.ready "db")),
      .startup (.answer (.ready "db") .success), .startup (.resume .execution),
      .startup (.resume .execution), .runContainer]

theorem execution_gated_shop :
    ∃ x, Runs shop (fun _ => true) [] [] x ∧ x.runIssued = true ∧ Gated shop (fun _ => true) x := by
  have hrun : ((Transition.run (Execution.step shop fun _ => true)
      (Execution.initial shop (fun _ => true) [] []) shopRun).map fun x => x.runIssued) =
        some true := by decide +kernel
  have hbuild : buildDependencyGraph shop.containers shop.root none = .ok shop.graph := by
    decide +kernel
  obtain ⟨x, hx, hissued⟩ := Transition.exists_reachable_of_run hrun
  exact ⟨x, hx, hissued, execution_gated hbuild hx⟩

end gating

/-! ### The parallelism cap -/

/-- The events that the code brings about by itself: the others are answers of the daemon, a timer
or a signal. -/
def ExecutionEvent.own : ExecutionEvent → Bool
  | .startup (.answer _ _) => false
  | .startup _ => true
  | .runContainer => true
  | .granted => true
  | _ => false

/-- The counted operations of the task's own container that are in flight: its start, or a setup
command of its gate. -/
def Phase.counted : Phase → ℕ
  | .starting => 1
  | .running (.exec _) => 1
  | _ => 0

/-- Something is outstanding at the daemon: a call of the start-up, or `run_container`. -/
def Execution.Outstanding (x : Execution) : Prop :=
  (x.phase = .startup ∧ ∃ k request, InFlight x.startup k request) ∨
    (x.runIssued = true ∧ x.phase ≠ .startup)

section parallelism

variable {settings : Settings} {fast : ℕ → Bool} {pulled : List (String × ImagePullPolicy)}
  {built : List String} {taskDependencies : Option (List String)} {x : Execution} {n : ℕ}

theorem Phase.counted_le_one (phase : Phase) : phase.counted ≤ 1 := by
  unfold Phase.counted
  split
  · exact le_rfl
  · exact le_rfl
  · exact Nat.zero_le 1

/-- After the start-up, until the end, `run_container` is outstanding. -/
theorem Runs.runIssued (h : Runs settings fast pulled built x) :
    x.phase = .startup ∨ (∃ ok, x.phase = .ended ok) ∨ x.runIssued = true := by
  refine h.invariant (P := fun x => x.phase = .startup ∨ (∃ ok, x.phase = .ended ok) ∨
    x.runIssued = true) (.inl rfl) ?_
  intro x e x' _ hx hstep
  rcases Execution.step_cases hstep with
      ⟨_, s, _, hstart, _, rfl⟩ | ⟨_, _, _, rfl⟩ | ⟨_, rfl⟩ | ⟨phase, hnext, rfl⟩
  · exact .inl hstart
  · exact .inr (.inr rfl)
  · exact .inr (.inl ⟨false, rfl⟩)
  · rcases hx with hp | ⟨ok, hp⟩ | hp
    · rw [hp] at hnext
      cases e <;> cases hnext
    · rw [hp] at hnext
      cases e <;> cases hnext
    · exact .inr (.inr hp)

/-- Once the start-up has succeeded, none of its initialisers runs. -/
theorem Runs.not_running
    (hgraph : GraphOf settings.containers settings.root taskDependencies settings.graph)
    (h : Runs settings fast pulled built x) (hphase : x.phase ≠ .startup)
    (hended : x.phase ≠ .ended false) (k : Cell) (job : Fanout.Job Cell Request Answer) :
    x.startup.cells k ≠ .running job := by
  have hinv := Fanout.reachable_inv (startup_wellFormed hgraph fast) h.startup
  rcases h.phase.2 with hp | hp | hp
  · exact absurd hp hphase
  · exact absurd hp hended
  · exact hinv.not_running_of_settled hp k job

theorem Runs.holders_eq_nil
    (hgraph : GraphOf settings.containers settings.root taskDependencies settings.graph)
    (h : Runs settings fast pulled built x) (hphase : x.phase ≠ .startup)
    (hended : x.phase ≠ .ended false) : x.startup.holders = [] := by
  have hinv := Fanout.reachable_inv (startup_wellFormed hgraph fast) h.startup
  rw [List.eq_nil_iff_forall_not_mem]
  intro k hk
  obtain ⟨job, hjob⟩ := hinv.holders k hk (by simp)
  exact h.not_running hgraph hphase hended k job hjob

/-- A bound on the start-up's counted operations is one on all of them: where the task's own
container has one, the start-up has none. -/
theorem counted_add_le {m : ℕ} (hn : 1 ≤ n) (hle : m ≤ n)
    (hzero : x.phase ≠ .startup → x.phase ≠ .ended false → m = 0) : m + x.phase.counted ≤ n := by
  have hone := x.phase.counted_le_one
  by_cases hphase : x.phase = .startup
  · rw [hphase]
    exact hle
  by_cases hended : x.phase = .ended false
  · rw [hended]
    exact hle
  · rw [hzero hphase hended]
    omega

/-- What the cap cannot bring about, and the bound on the calls that are awaited. -/
structure Unblocked (settings : Settings) (fast : ℕ → Bool) (n : ℕ) (x : Execution) : Prop where
  inFlight : ∀ l : List Cell, l.Nodup →
    (∀ k ∈ l, ∃ request, InFlight x.startup k request ∧ request.capped = true) →
    l.length + x.phase.counted ≤ n
  holders : ∀ k ∈ x.startup.holders, ∃ stack request next sent,
    x.startup.cells k = .running ⟨stack, .call request next, sent⟩
  gate : ∀ index, x.phase = .running (.permit index) →
    x.startup.holders = [] ∧ ∃ x', Execution.step settings fast x .granted = some x'
  progress : (∀ ok, x.phase ≠ .ended ok) → (∀ f, x.startup.cells .execution ≠ .settled (.error f)) →
    x.Outstanding ∨ ∃ e x', e.own = true ∧ Execution.step settings fast x e = some x'

/-- The parallelism cap: the daemon has at most `n` counted requests that it has not answered,
whether or not a call still awaits them, and nothing blocks. -/
structure Parallel (settings : Settings) (fast : ℕ → Bool) (n : ℕ) (x : Execution) : Prop
    extends Unblocked settings fast n x where
  atDaemon : (x.startup.unanswered.filter fun call => call.2.capped).length + x.phase.counted ≤ n

/-- The start-up by itself moves, is over or has failed. -/
theorem Runs.progress
    (hgraph : GraphOf settings.containers settings.root taskDependencies settings.graph)
    (hcap : ∀ n, settings.maxParallelism = some n → 1 ≤ n)
    (h : Runs settings fast pulled built x) (hended : ∀ ok, x.phase ≠ .ended ok)
    (hfailed : ∀ f, x.startup.cells .execution ≠ .settled (.error f)) :
    x.Outstanding ∨ ∃ e x', e.own = true ∧ Execution.step settings fast x e = some x' := by
  have hinv := Fanout.reachable_inv (startup_wellFormed hgraph fast) h.startup
  by_cases hphase : x.phase = .startup
  · by_cases hok : x.startup.cells .execution = .settled (.ok ())
    · refine .inr ⟨.runContainer, { x with phase := .starting, runIssued := true }, rfl, ?_⟩
      simp only [Execution.step]
      rw [if_pos ⟨hphase, (Fanout.isOk_iff _ _).mpr hok⟩]
    · have hopen : ∀ r, x.startup.cells (startupSystem settings fast).top ≠ .settled r := by
        intro r hr
        cases r with
        | ok u => exact hok hr
        | error f => exact hfailed f hr
      rcases Fanout.exists_step hinv hcap hopen with hflight | ⟨e, s, hown, hs⟩
      · exact .inl (.inl ⟨hphase, hflight⟩)
      · refine .inr ⟨.startup e, { x with startup := s }, ?_, ?_⟩
        · cases e with
          | answer k a => exact absurd rfl (hown k a)
          | _ => rfl
        · simp only [Execution.step, hphase, hs, Option.map_some]
  · rcases h.runIssued with hp | ⟨ok, hp⟩ | hp
    · exact absurd hp hphase
    · exact absurd hp (hended ok)
    · exact .inl (.inr ⟨hp, hphase⟩)

/-- In every state of every run, whatever the joins do: awaited counted calls are at most as many as
there are permits, an initialiser with a permit waits for nothing but a call, and an execution that
has neither ended nor failed is never stuck. -/
theorem Runs.unblocked
    (hgraph : GraphOf settings.containers settings.root taskDependencies settings.graph)
    (hcap : settings.maxParallelism = some n) (hn : 1 ≤ n)
    (h : Runs settings fast pulled built x) : Unblocked settings fast n x := by
  have hinv := Fanout.reachable_inv (startup_wellFormed hgraph fast) h.startup
  refine ⟨fun l hl hflight => ?_, fun k hk => hinv.call_of_holder hk, fun index hphase => ?_,
    fun hended hfailed => ?_⟩
  · refine counted_add_le hn (Fanout.capped_inFlight hinv hcap l hl hflight) fun hphase hended => ?_
    rw [List.length_eq_zero_iff, List.eq_nil_iff_forall_not_mem]
    intro k hk
    obtain ⟨request, ⟨stack, next, hrun⟩, _⟩ := hflight k hk
    exact h.not_running hgraph hphase hended k _ hrun
  · have hnil := h.holders_eq_nil hgraph (by simp [hphase]) (by simp [hphase])
    refine ⟨hnil, { x with phase := .running (.exec index) }, ?_⟩
    have hfree : Fanout.permitFree (startupSystem settings fast) x.startup = true := by
      simp only [Fanout.permitFree, startupSystem, hcap, hnil, List.length_nil, decide_eq_true_eq]
      omega
    simp only [Execution.step, hphase, nextPhase, hfree, if_true, Option.map_some]
  · refine h.progress hgraph (fun m hm => ?_) hended hfailed
    rw [hcap] at hm
    obtain rfl := Option.some.inj hm
    exact hn

/-- Once the start-up has succeeded, the daemon has answered all its requests. -/
theorem Runs.unanswered_eq_nil
    (hgraph : GraphOf settings.containers settings.root taskDependencies settings.graph)
    (h : Runs settings fast pulled built x) (hphase : x.phase ≠ .startup)
    (hended : x.phase ≠ .ended false) : x.startup.unanswered = [] := by
  rcases h.phase.2 with hp | hp | hok
  · exact absurd hp hphase
  · exact absurd hp hended
  · exact (Fanout.failures_of_ok (startup_wellFormed hgraph fast) h.startup hok).2

end parallelism

end Ratect
