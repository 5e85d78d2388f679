import Ratect.Execution

/-! # Cleaning up after a task

The end of `run_task_internal`, from the moment the run is over: the creates still with the daemon
are waited for, then every container created is stopped and removed, dependents first; a signal
escalates that to forced removals, and a `SIGINT` after it abandons the cleanup; then the run's own
network is removed, and what is left behind is reported.

`RunEnd` is what the run leaves to it, and `Cleanup.step` one step of it: of the code, of the
signal listeners, or of the daemon.  Each signal has a listener of its own, and `recording` are the
signals of which only the first half is recorded.  The daemon may carry out a request whose answer
nobody awaits any more: `made` and `networkMade` say what it has created without an answer.  The
log keeps what was requested, reported and posted, in order, with the signals in between.

The cancels of abandoned builds and the narration of each container decide nothing here and are
left out. -/

namespace Ratect

open PostOrder (Edge)

/-! ### What is left behind -/

/-- A container that cleanup removes: its name in the configuration and its id. -/
structure Removal where
  name : String
  id : String
deriving DecidableEq, Repr

/-- `LeftBehind`: the containers and the network that remain. -/
structure LeftBehind where
  containers : List Removal
  network : Option String
deriving DecidableEq, Repr

namespace LeftBehind

def isEmpty (left : LeftBehind) : Bool := left.containers.isEmpty && left.network.isNone

/-- The id as `docker ps` shows it. -/
def shortId (id : String) : String := String.ofList (id.toList.take 12)

def list (left : LeftBehind) : String :=
  ", ".intercalate (left.containers.map (fun r => s!"{r.name} ({shortId r.id})") ++
    left.network.toList.map fun network => s!"network {network}")

/-- The command that removes it, the network last. -/
def command (left : LeftBehind) : String :=
  let containers := if left.containers.isEmpty then []
    else ["docker rm -f -v " ++ " ".intercalate (left.containers.map fun r => shortId r.id)]
  "; ".intercalate (containers ++ left.network.toList.map fun network =>
    s!"docker network rm {network}")

/-- The cleanup failure: what went wrong, what is left and how to remove it. -/
def failureMessage (left : LeftBehind) (abandoned : Bool) (refusals : List String) : String :=
  let what := match abandoned, refusals.isEmpty with
    | true, true => "Cleanup abandoned"
    | true, false => "Cleanup abandoned after failing: " ++ "; ".intercalate refusals
    | false, _ => "Cleanup failed: " ++ "; ".intercalate refusals
  if left.isEmpty then s!"{what}. Nothing is known to be left behind."
  else s!"{what}; left behind: {left.list}. Remove with: {left.command}"

end LeftBehind

/-! ### What a run leaves to cleanup -/

/-- A create that has not finished: without an answer, or with a container whose identity is still
being applied. -/
inductive Stage where
  | asked
  | preparing
deriving DecidableEq, Repr

/-- How a run ended. -/
inductive RunResult where
  | passed
  | exited (code : ℕ)
  | failed
  | interrupted
  | cleanupFailed
deriving DecidableEq, Repr

/-- The exit code of the task's own container, if it ran to completion. -/
def RunResult.exitCode : RunResult → Option ℕ
  | passed => some 0
  | exited code => some code
  | _ => none

/-- The state at the end of a run.  A create that names a container is registered before anything
else can happen to it, names and ids are Docker's own and unique, and a run that passed has had
every answer. -/
structure RunEnd where
  runId : String
  graph : Graph
  root : String
  existingNetwork : Option String
  networkName : Option String
  networkSent : Bool
  created : List Removal
  pending : List (String × Stage)
  result : RunResult
  interrupt : Interrupt
  recording : List TerminationSignal
  cleanupAfterSuccess : Bool
  cleanupAfterFailure : Bool
  topLevel : Bool
  acyclic : ∀ name, ¬ Relation.TransGen (Edge graph.get) name name
  names : (created.map Removal.name).Nodup
  ids : (created.map Removal.id).Nodup
  preparing : ∀ name, (name, Stage.preparing) ∈ pending → name ∈ created.map Removal.name
  finished : result = .passed → pending = [] ∧ networkSent = false

namespace RunEnd

variable (e : RunEnd)

/-- The run created its network and knows it. -/
def ownsNetwork : Bool := e.existingNetwork.isNone && e.networkName.isSome

/-- `escalate_at`: one signal more than there were when the run ended. -/
def escalateAt : ℕ := e.interrupt.count + 1

/-- Whether what the run created is removed. -/
def shouldCleanup : Bool :=
  if e.result.exitCode.isSome then e.cleanupAfterSuccess || !e.topLevel else e.cleanupAfterFailure

end RunEnd

/-! ### The end of an execution -/

/-- How an execution ends: by itself, with the failure of its start-up, or by a signal, which may
drop it at any moment. -/
def Execution.EndsAs (x : Execution) : RunResult → Prop
  | .passed => x.phase = .ended true
  | .exited _ => x.phase = .ended false ∧ x.runIssued = true
  | .failed => x.phase = .ended false ∨ ∃ f, x.startup.cells .execution = .settled (.error f)
  | .interrupted => ∀ ok, x.phase ≠ .ended ok
  | .cleanupFailed => False

/-- The containers registered: those of the creates answered with one. -/
def Execution.createdNames (x : Execution) : List String :=
  (x.startup.answers.filterMap fun answer =>
    match answer with
    | (_, .createContainer name, .success) => some name
    | (_, .createContainer name, .refusedCreated) => some name
    | _ => none).dedup

/-- Whether a container's identity is still being applied. -/
def Execution.isPreparing (x : Execution) (name : String) : Bool :=
  (x.startup.unanswered.any fun call => call.2 = .applyIdentity name) ||
    match x.startup.cells (.created name) with
    | .running ⟨_, .call (.applyIdentity _) _, _⟩ => true
    | _ => false

/-- The creates that have not finished. -/
def Execution.pendingCreates (x : Execution) : List (String × Stage) :=
  (x.startup.unanswered.filterMap fun call =>
    match call.2 with
    | .createContainer name => some (name, .asked)
    | _ => none) ++
  (x.createdNames.filter x.isPreparing).map fun name => (name, .preparing)

/-- `network_name_cell`: written once the network is known to be there. -/
def Execution.networkNameCell (x : Execution) (settings : Settings)
    (networkName : String) : Option String :=
  match settings.existingNetwork with
  | some name =>
      if (.execution, .networkExists name, .success) ∈ x.startup.answers then some name else none
  | none =>
      if (.execution, .createNetwork, .success) ∈ x.startup.answers then some networkName else none

section ending

variable {settings : Settings} {fast : ℕ → Bool} {pulled : List (String × ImagePullPolicy)}
  {built : List String} {taskDependencies : Option (List String)} {x : Execution}

/-- A run that passed has no create left. -/
theorem Runs.pendingCreates_eq_nil
    (hgraph : GraphOf settings.containers settings.root taskDependencies settings.graph)
    (h : Runs settings fast pulled built x) (hphase : x.phase = .ended true) :
    x.startup.unanswered = [] ∧ x.pendingCreates = [] := by
  have hwf := startup_wellFormed hgraph fast
  have htop : x.startup.cells .execution = .settled (.ok ()) := by
    rcases h.phase.2 with hp | hp | hp
    · rw [hphase] at hp
      cases hp
    · rw [hphase] at hp
      cases hp
    · exact hp
  have hnil : x.startup.unanswered = [] := (Fanout.failures_of_ok hwf h.startup htop).2
  refine ⟨hnil, ?_⟩
  have hprepared : ∀ name, x.isPreparing name = false := by
    intro name
    have hrun := (Fanout.reachable_inv hwf h.startup).not_running_of_settled htop (.created name)
    unfold Execution.isPreparing
    rw [hnil]
    cases hcell : x.startup.cells (.created name) with
    | idle => rfl
    | settled r => rfl
    | running job => exact absurd hcell (hrun job)
  unfold Execution.pendingCreates
  rw [hnil]
  simp [hprepared]

/-- What an execution leaves to cleanup.  The ids are the daemon's, one for each name. -/
def Execution.runEnd (x : Execution)
    (hbuild : buildDependencyGraph settings.containers settings.root taskDependencies =
      .ok settings.graph)
    (h : Runs settings fast pulled built x) {result : RunResult} (hend : x.EndsAs result)
    {ids : String → String} (hids : Function.Injective ids) (networkName runId : String)
    (interrupt : Interrupt) (recording : List TerminationSignal)
    (cleanupAfterSuccess cleanupAfterFailure topLevel : Bool) : RunEnd where
  runId := runId
  graph := settings.graph
  root := settings.root
  existingNetwork := settings.existingNetwork
  networkName := x.networkNameCell settings networkName
  networkSent := decide ((.execution, .createNetwork) ∈ x.startup.unanswered)
  created := x.createdNames.map fun name => ⟨name, ids name⟩
  pending := x.pendingCreates
  result := result
  interrupt := interrupt
  recording := recording
  cleanupAfterSuccess := cleanupAfterSuccess
  cleanupAfterFailure := cleanupAfterFailure
  topLevel := topLevel
  acyclic := (buildDependencyGraph_spec hbuild).acyclic
  names := by
    rw [List.map_map]
    exact (List.map_id _).symm ▸ List.nodup_dedup _
  ids := by
    rw [List.map_map]
    exact (List.nodup_dedup _).map hids
  preparing := by
    intro name hname
    unfold Execution.pendingCreates at hname
    rcases List.mem_append.mp hname with hname | hname
    · obtain ⟨⟨k, request⟩, _, heq⟩ := List.mem_filterMap.mp hname
      dsimp only at heq
      split at heq
      · cases heq
      · cases heq
    · obtain ⟨other, hother, heq⟩ := List.mem_map.mp hname
      rw [← (Prod.mk.inj heq).1, List.map_map, List.mem_map]
      exact ⟨other, List.mem_of_mem_filter hother, rfl⟩
  finished := by
    rintro rfl
    obtain ⟨hnil, hpending⟩ := h.pendingCreates_eq_nil (buildDependencyGraph_spec hbuild) hend
    refine ⟨hpending, ?_⟩
    rw [hnil]
    simp

end ending

/-! ### The order of the stops -/

/-- The inner `reach` of `dependents_to_stop_first`: everything a container depends on. -/
def allDependencies (graph : Graph) (name : String) : List String :=
  PostOrder.reach graph.get ((graph.flatMap Prod.snd).length + 1) name []

/-- The loop of `dependents_to_stop_first`, at one container: all it depends on wait for it. -/
def addDependent (graph dependents : Graph) (dependent : String) : Graph :=
  dependents.map fun entry =>
    (entry.1, if entry.1 ∈ allDependencies graph dependent then entry.2 ++ [dependent] else entry.2)

/-- `dependents_to_stop_first`: for each of the containers, those that depend on it, directly or
through others. -/
def dependentsToStopFirst (graph : Graph) (created : List String) : Graph :=
  created.foldl (addDependent graph) (created.map fun name => (name, []))

/-- The containers in the order they are listed: the task's own first, the others by name. -/
def removalOrder (root : String) (created : List Removal) : List Removal :=
  created.filter (fun r => r.name = root) ++
    (created.filter fun r => r.name ≠ root).insertionSort fun a b => a.name ≤ b.name

/-! ### The cleanup -/

/-- What cleanup posts. -/
inductive Post where
  | unanswered (names : List String)
  | forceRemoving (signal : TerminationSignal)
  | leftBehind (left : LeftBehind) (abandoned : Bool) (refusals : List String)
  | complete
  | kept (left : LeftBehind)
deriving DecidableEq, Repr

/-- The text of what is posted. -/
def Post.text (runId : String) : Post → String
  | unanswered [name] =>
      s!"Stopped waiting for the create of {name} to answer, so it may exist; " ++
        s!"find it with docker ps -a --filter label=eu.orican.ratect.run={runId}"
  | unanswered names =>
      "Stopped waiting for the creates of " ++ ", ".intercalate names ++
        " to answer, so they may exist; " ++
        s!"find them with docker ps -a --filter label=eu.orican.ratect.run={runId}"
  | forceRemoving signal =>
      s!"{signal.endedRun} during cleanup; force-removing what's left. Press Ctrl+C to stop " ++
        "cleaning up."
  | leftBehind left abandoned refusals => left.failureMessage abandoned refusals
  | complete => "Cleanup complete."
  | kept left => s!"Left in place (--no-cleanup): {left.list}. Remove with: {left.command}"

/-- An entry of the log. -/
inductive Entry where
  | signalled (signal : TerminationSignal)
  | counted (signal : TerminationSignal)
  | stopRequested (name : String)
  | stopReported (name : String)
  | forceRequested (name : String)
  | forceReported (name : String)
  | networkRequested
  | escalated
  | abandoned
  | post (p : Post)
deriving DecidableEq, Repr

/-- Where cleanup is: waiting for the creates, at the top of the graceful loop, waiting for a stop
in it, taking the stops that had finished when it ended, waiting for the forced removals, waiting
for the network's with the `SIGINT`s there were at the escalation, about to report, done. -/
inductive CleanupPhase where
  | creates
  | batch
  | stops
  | draining
  | forced
  | network (interruptsAtEscalation : Option ℕ)
  | finishing
  | finished
deriving DecidableEq, Repr

/-- How far a phase is; the loop's two count as one. -/
def CleanupPhase.stage : CleanupPhase → ℕ
  | creates => 0
  | batch => 1
  | stops => 1
  | draining => 2
  | forced => 3
  | network _ => 4
  | finishing => 5
  | finished => 6

/-- The state of a cleanup.  `reported` are the containers whose attempt has been reported, with
whatever outcome. -/
structure Cleanup where
  phase : CleanupPhase
  interrupt : Interrupt
  recording : List TerminationSignal
  created : List Removal
  pending : List (String × Stage)
  made : List String
  networkMade : Bool
  toRemove : List Removal
  waiting : Graph
  queued : List Removal
  inFlight : List Removal
  forced : List Removal
  reported : List Removal
  removed : List String
  refusals : List String
  cleanupFailed : Bool
  interruptsAtEscalation : Option ℕ
  abandoned : Bool
  networkRemoved : Bool
  log : List Entry

/-- The daemon's answer to a create: a container, which may have to be prepared; none; or a failure
that left a container. -/
inductive CreateAnswer where
  | created (id : String) (preparing : Bool)
  | refused
  | refusedCreated (id : String)
deriving DecidableEq, Repr

/-- What can happen next.  A refusal carries the daemon's message. -/
inductive CleanupEvent where
  | signal (signal : TerminationSignal)
  | count (signal : TerminationSignal)
  | makes (name : String)
  | makesNetwork
  | createAnswered (name : String) (answer : CreateAnswer)
  | prepared (name : String)
  | proceed
  | cutShort
  | stopAnswered (r : Removal) (refusal : Option String)
  | forceAnswered (r : Removal) (refusal : Option String)
  | networkAnswered (refusal : Option String)
  | escalate
  | abandon
deriving DecidableEq, Repr

namespace Cleanup

variable (e : RunEnd) (c : Cleanup)

/-- The containers known by name. -/
def names : List String := c.created.map Removal.name

/-- `report`: the outcome of one removal, a refusal or none. -/
def report (r : Removal) (refusal : Option String) : Cleanup :=
  { c with
    removed := if refusal.isSome then c.removed else c.removed ++ [r.id]
    cleanupFailed := c.cleanupFailed || refusal.isSome
    refusals := c.refusals ++ refusal.toList
    reported := c.reported ++ [r] }

/-- The creates without an answer and without an id, by name. -/
def unansweredNames : List String :=
  dedupAdjacent (((c.pending.map Prod.fst).filter fun name => name ∉ c.names).insertionSort (· ≤ ·))

/-- What remains, as far as the code knows. -/
def left : LeftBehind where
  containers := c.toRemove.filter fun r => r.id ∉ c.removed
  network := if e.ownsNetwork && !c.networkRemoved then e.networkName else none

/-- The warning about the creates without an answer. -/
def warnings : List Entry :=
  if c.unansweredNames = [] then [] else [.post (.unanswered c.unansweredNames)]

/-- Without a cleanup, the notice about what is kept. -/
def keptNotices : List Entry :=
  let left : LeftBehind :=
    ⟨removalOrder e.root c.created, if e.ownsNetwork then e.networkName else none⟩
  if left.isEmpty then [] else [.post (.kept left)]

/-- The wait for the creates is over: what has no answer is warned about, and what was created is
read. -/
def beginRemovals : Cleanup :=
  let removals := removalOrder e.root c.created
  if e.shouldCleanup then
    { c with
      phase := .batch
      toRemove := removals
      queued := removals
      waiting := dependentsToStopFirst e.graph (removals.map Removal.name)
      log := c.log ++ c.warnings }
  else
    { c with
      phase := .finished
      log := c.log ++ c.warnings ++ keptNotices e c }

/-- Whether every dependent of a container has had its attempt. -/
def isReady (r : Removal) : Bool := c.waiting.get r.name = []

/-- The top of the graceful loop: it ends at a signal, and otherwise everything that waits for no
dependent is stopped. -/
def batch : Cleanup :=
  if e.escalateAt ≤ c.interrupt.count then { c with phase := .draining }
  else
    { c with
      phase := .stops
      queued := c.queued.filter fun r => !c.isReady r
      inFlight := c.inFlight ++ c.queued.filter c.isReady
      log := c.log ++ (c.queued.filter c.isReady).map fun r => .stopRequested r.name }

/-- A stop is over, with whatever outcome. -/
def stopped (r : Removal) (refusal : Option String) : Cleanup :=
  { c.report r refusal with
    inFlight := c.inFlight.filter fun other => other.id ≠ r.id
    log := c.log ++ [.stopReported r.name] }

/-- A forced removal is over, with whatever outcome. -/
def removedByForce (r : Removal) (refusal : Option String) : Cleanup :=
  { c.report r refusal with
    forced := c.forced.filter fun other => other.id ≠ r.id
    log := c.log ++ [.forceReported r.name] }

/-- What is left goes on to the network, if the run owns one and cleanup is not abandoned. -/
def toNetwork : Cleanup :=
  if e.ownsNetwork && !c.abandoned then
    { c with
      phase := .network c.interruptsAtEscalation
      log := c.log ++ [.networkRequested] }
  else { c with phase := .finishing }

/-- After the graceful loop: what it left is removed by force. -/
def force : Cleanup :=
  let removals := c.inFlight ++ c.queued
  if removals = [] then toNetwork e c
  else
    { c with
      phase := .forced
      inFlight := []
      queued := []
      forced := removals
      interruptsAtEscalation := some c.interrupt.interrupts
      log := c.log ++ .escalated :: .post (.forceRemoving c.interrupt.lastSignal) ::
        removals.map fun r => .forceRequested r.name }

/-- What cleanup ends by posting. -/
def finalPosts : List Entry :=
  if c.cleanupFailed || c.abandoned then [.post (.leftBehind (c.left e) c.abandoned c.refusals)]
  else if e.result = .interrupted then [.post .complete] else []

/-- The end: what is left is reported, or that nothing is. -/
def finish : Cleanup :=
  { c with
    phase := .finished
    cleanupFailed := c.cleanupFailed || c.abandoned
    log := c.log ++ finalPosts e c }

/-- A create's container is registered under its name; Docker gives no name and no id twice. -/
def register (name id : String) : Option Cleanup :=
  if name ∉ c.names ∧ id ∉ c.created.map Removal.id then
    some { c with
      created := c.created ++ [⟨name, id⟩]
      pending := c.pending.erase (name, .asked)
      made := c.made.filter fun other => other ≠ name }
  else none

/-- One step. -/
def step : CleanupEvent → Option Cleanup
  | .signal s =>
      if s ∉ c.recording then
        some { c with
          recording := s :: c.recording
          interrupt := c.interrupt.noteSignal s
          log := c.log ++ [.signalled s] }
      else none
  | .count s =>
      if s ∈ c.recording then
        some { c with
          recording := c.recording.erase s
          interrupt := c.interrupt.raiseCount
          log := c.log ++ [.counted s] }
      else none
  | .makes name =>
      if (name, .asked) ∈ c.pending ∧ name ∉ c.names ∧ name ∉ c.made then
        some { c with made := name :: c.made }
      else none
  | .makesNetwork =>
      if e.networkSent ∧ c.networkMade = false then some { c with networkMade := true } else none
  | .createAnswered name answer =>
      if c.phase = .creates ∧ (name, .asked) ∈ c.pending then
        match answer with
        | .created id preparing => (c.register name id).map fun c =>
            if preparing then { c with pending := (name, .preparing) :: c.pending } else c
        | .refusedCreated id => c.register name id
        | .refused =>
            if name ∉ c.made then some { c with pending := c.pending.erase (name, .asked) }
            else none
      else none
  | .prepared name =>
      if c.phase = .creates ∧ (name, .preparing) ∈ c.pending then
        some { c with pending := c.pending.erase (name, .preparing) }
      else none
  | .proceed =>
      match c.phase with
      | .creates => if c.pending = [] then some (beginRemovals e c) else none
      | .batch => some (batch e c)
      | .stops => if c.inFlight = [] then some { c with phase := .draining } else none
      | .draining => some (force e c)
      | .forced => if c.forced = [] then some (toNetwork e c) else none
      | .network _ => none
      | .finishing => some (finish e c)
      | .finished => none
  | .cutShort =>
      match c.phase with
      | .creates =>
          if c.pending ≠ [] ∧ e.escalateAt ≤ c.interrupt.count then
            some (beginRemovals e c) else none
      | .stops =>
          if c.inFlight ≠ [] ∧ e.escalateAt ≤ c.interrupt.count then
            some { c with phase := .draining }
          else none
      | _ => none
  | .stopAnswered r refusal =>
      match c.phase with
      | .stops =>
          if r ∈ c.inFlight then
            some { c.stopped r refusal with
              phase := .batch
              waiting := c.waiting.map fun entry => (entry.1, entry.2.filter fun d => d ≠ r.name) }
          else none
      | .draining => if r ∈ c.inFlight then some (c.stopped r refusal) else none
      | _ => none
  | .forceAnswered r refusal =>
      if c.phase = .forced ∧ r ∈ c.forced then some (c.removedByForce r refusal) else none
  | .networkAnswered refusal =>
      match c.phase with
      | .network _ => some { c with
          phase := .finishing
          networkRemoved := refusal.isNone
          cleanupFailed := c.cleanupFailed || refusal.isSome
          refusals := c.refusals ++ refusal.toList }
      | _ => none
  | .escalate =>
      match c.phase with
      | .network none =>
          if e.escalateAt ≤ c.interrupt.count then
            some { c with
              phase := .network (some c.interrupt.interrupts)
              log := c.log ++ [.escalated] }
          else none
      | _ => none
  | .abandon =>
      match c.phase with
      | .forced =>
          match c.interruptsAtEscalation with
          | some interrupts =>
              if c.forced ≠ [] ∧ interrupts + 1 ≤ c.interrupt.interrupts then
                some (toNetwork e { c with
                  abandoned := true
                  log := c.log ++ [.abandoned] })
              else none
          | none => none
      | .network (some interrupts) =>
          if interrupts + 1 ≤ c.interrupt.interrupts then
            some { c with
              phase := .finishing
              abandoned := true
              log := c.log ++ [.abandoned] }
          else none
      | _ => none

/-- Cleanup at its start. -/
def start : Cleanup where
  phase := .creates
  interrupt := e.interrupt
  recording := e.recording
  created := e.created
  pending := e.pending
  made := []
  networkMade := e.ownsNetwork
  toRemove := []
  waiting := []
  queued := []
  inFlight := []
  forced := []
  reported := []
  removed := []
  refusals := []
  cleanupFailed := false
  interruptsAtEscalation := none
  abandoned := false
  networkRemoved := false
  log := []

/-- The result that `run_task_internal` returns. -/
def result : RunResult :=
  match e.result with
  | .passed => if c.cleanupFailed then .cleanupFailed else .passed
  | r => r

/-- The states of every cleanup after a run. -/
def Runs : Cleanup → Prop := Transition.Reachable (step e) (start e)

end Cleanup

end Ratect
