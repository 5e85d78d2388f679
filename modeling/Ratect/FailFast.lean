import Ratect.Execution

/-! # The first failure of a start-up

The engine's comments say that a doomed pull, build or create "fails the run as soon as it fails".
`try_join_all` returns at the first error only over at most thirty futures: over more it reads its
results in list order, so the failure of a late entry waits for the earlier ones.

`execution_fails_fast` is what a run of a graph of at most thirty containers keeps.  On the graph
`wide`, of thirty-two, a refused start does not end the start-up: another container is created
after it, and one that the failure dropped is started a second time.

The same failure breaks the cap: a call that it drops gives its permit back at once, while its
request stays at the daemon.  `execution_parallelism` holds until a step fails, and to the end
where the failure ends the start-up; on `wideCapped`, with two permits, three requests are at the
daemon together. -/

namespace Ratect

open Transition (Reachable)

/-- The first failure is the end of the start-up: it is on record, the execution has failed with
it, and nothing but a signal can still happen; and no container is started twice. -/
structure FailsFast (settings : Settings) (fast : ℕ → Bool) (x : Execution) : Prop where
  answered : ∀ k request a, (k, request, a) ∈ x.startup.answers → request.fails a →
    x.startup.failures ≠ []
  failed : ∀ c f, x.startup.cells c = .settled (.error f) → x.startup.failures ≠ []
  atOnce : x.startup.failures ≠ [] → ∃ f, x.startup.failures = [f] ∧
    x.startup.cells .execution = .settled (.error f) ∧ x.runIssued = false ∧
    ∀ e x', Execution.step settings fast x e = some x' → e = .interrupted
  startedOnce : ∀ name, x.timesIssued (.startBackgroundContainer name) ≤ 1

section failing

variable {settings : Settings} {fast : ℕ → Bool} {pulled : List (String × ImagePullPolicy)}
  {built : List String} {taskDependencies : Option (List String)} {x : Execution}

/-- A start-up that has failed goes nowhere. -/
theorem Runs.stops_of_failed
    (hgraph : GraphOf settings.containers settings.root taskDependencies settings.graph)
    (h : Runs settings fast pulled built x) {f : Cell}
    (hf : x.startup.cells .execution = .settled (.error f)) :
    x.runIssued = false ∧ ∀ e x', Execution.step settings fast x e = some x' →
      e = .interrupted := by
  have hinv := Fanout.reachable_inv (startup_wellFormed hgraph fast) h.startup
  obtain ⟨hissued, hphase⟩ := h.phase
  constructor
  · by_contra hrun
    have hok := hissued (by simpa using hrun)
    rw [hf] at hok
    cases hok
  · intro e x' hstep
    rcases Execution.step_cases hstep with
        ⟨event, s, _, _, hs, _⟩ | ⟨_, _, hok, _⟩ | ⟨he, _⟩ | ⟨phase, hnext, _⟩
    · rw [Fanout.step_eq_none_of_settled hinv hf event] at hs
      cases hs
    · rw [hf] at hok
      cases hok
    · exact he
    · rcases hphase with hp | hp | hok
      · rw [hp] at hnext
        cases e <;> cases hnext
      · rw [hp] at hnext
        cases e <;> cases hnext
      · rw [hf] at hok
        cases hok

/-- In every state of every run of a graph of at most thirty containers, the first failure has ended
the start-up. -/
theorem execution_fails_fast
    (hbuild : buildDependencyGraph settings.containers settings.root taskDependencies =
      .ok settings.graph)
    (hsize : settings.graph.keys.length ≤ 30) (h : Runs settings tryJoinAllFast pulled built x) :
    FailsFast settings tryJoinAllFast x := by
  have hgraph := buildDependencyGraph_spec hbuild
  have hwf := startup_wellFormed hgraph tryJoinAllFast
  have hfast : ∀ n ≤ settings.graph.keys.length, tryJoinAllFast n = true :=
    fun n hn => decide_eq_true (hn.trans hsize)
  have hbad : ∀ k,
      Fanout.FailsOn Request.fails ((startupSystem settings tryJoinAllFast).script k) :=
    fun k => (cellScript_conforms hgraph k).failsOn
  refine ⟨fun k request a hmem ha => Fanout.failures_of_answer hbad h.startup hmem ha,
    fun c f hc hnil => Fanout.reachable_noError hwf h.startup hnil c f hc, fun hne => ?_,
    fun name => (h.timesIssued_le hgraph hfast name).2⟩
  rcases Fanout.failed_at_once hwf (startup_quick hgraph hfast) h.startup with
      ⟨hnil, _⟩ | ⟨f, hf, htop⟩
  · exact absurd hnil hne
  · exact ⟨f, hf, htop, h.stops_of_failed hgraph htop⟩

/-- `db` of the task `app` fails to start. -/
def shopFailure : List ExecutionEvent :=
  [.startup (.send .execution), .startup (.answer .execution .success)] ++
    lookingUp "db" "postgres" ++
    [.startup (.claim .execution (.ready "db")), .startup (.resume (.ready "db"))] ++
    creating "db" "postgres" ++ starting "db" ++ [.startup (.answer (.ready "db") .refused)]

theorem execution_fails_fast_shop :
    ∃ x, Runs shop tryJoinAllFast [] [] x ∧ x.startup.failures = [.ready "db"] ∧
      FailsFast shop tryJoinAllFast x := by
  have hrun : ((Transition.run (Execution.step shop tryJoinAllFast)
      (Execution.initial shop tryJoinAllFast [] []) shopFailure).map fun x => x.startup.failures) =
        some [.ready "db"] := by decide +kernel
  have hbuild : buildDependencyGraph shop.containers shop.root none = .ok shop.graph := by
    decide +kernel
  obtain ⟨x, hx, hfailures⟩ := Transition.exists_reachable_of_run hrun
  exact ⟨x, hx, hfailures, execution_fails_fast hbuild (by decide) hx⟩

/-! ### A wider graph -/

def wideNames : List String :=
  ["c00", "c01", "c02", "c03", "c04", "c05", "c06", "c07", "c08", "c09", "c10", "c11", "c12", "c13",
    "c14", "c15", "c16", "c17", "c18", "c19", "c20", "c21", "c22", "c23", "c24",
    "c25", "c26", "c27",
    "c28", "c29", "c30"]

/-- A container whose image has its name. -/
def namedContainer (dependencies : List String) (name : String) : String × Container :=
  (name, imageContainer name dependencies)

/-- A task container that depends on thirty-one others, of which `c01` depends on the last two. -/
def wide : Settings where
  containers :=
    { entries := namedContainer ["c29", "c30"] "c01" :: namedContainer wideNames "root" ::
        (wideNames.filter (· ≠ "c01")).map (namedContainer [])
      nodup := by decide +kernel
      targets := by
        intro e he target hmode
        simp only [List.mem_cons, List.mem_map] at he
        rcases he with rfl | rfl | ⟨name, _, rfl⟩
        · cases hmode
        · cases hmode
        · cases hmode }
  graph := [("c00", []), ("c29", []), ("c30", []), ("c01", ["c29", "c30"])] ++
    ((wideNames.drop 2).take 27).map (fun name => (name, [])) ++ [("root", wideNames)]
  root := "root"
  existingNetwork := none
  imageOverrides := fun _ => none
  imageTags := fun _ => none
  maxParallelism := none
  taskContainerReadinessGate := false

/-- Every creation has begun, `c29` is being started, and the start of `c30` is refused. -/
def wideFailure : List ExecutionEvent :=
  [.startup (.send .execution), .startup (.answer .execution .success)] ++
    ("root" :: wideNames).flatMap (fun name => lookingUp name name) ++
    [.startup (.claim .execution (.ready "c00")), .startup (.claim .execution (.ready "c01"))] ++
    ["c29", "c30"].flatMap (fun name => [.startup (.claim (.ready "c01") (.ready name)),
      .startup (.resume (.ready name))] ++ creating name name ++ starting name) ++
    [.startup (.answer (.ready "c30") .refused)]

/-- After it, `c00` is created and `c29`, which the failure of `c01` dropped, is started again. -/
def wideAftermath : List ExecutionEvent :=
  creating "c00" "c00" ++ [.startup (.claim .execution (.ready "c29")),
    .startup (.resume (.ready "c29")), .startup (.resume (.ready "c29")),
    .startup (.acquire (.ready "c29")), .startup (.send (.ready "c29"))]

/-- The start-up goes on after a failure, creates a container and starts one twice. -/
theorem wide_goes_on :
    buildDependencyGraph wide.containers wide.root none = .ok wide.graph ∧
    ∃ x x', Runs wide tryJoinAllFast [] [] x ∧ Runs wide tryJoinAllFast [] [] x' ∧
      Reachable (Execution.step wide tryJoinAllFast) x x' ∧
      (.ready "c30", .startBackgroundContainer "c30", .refused) ∈ x.startup.answers ∧
      x.startup.failures = [.ready "c30"] ∧ x.startup.failureOf .execution = none ∧
      x.timesIssued (.createContainer "c00") = 0 ∧ x'.timesIssued (.createContainer "c00") = 1 ∧
      x'.timesIssued (.startBackgroundContainer "c29") = 2 ∧
      ¬ FailsFast wide tryJoinAllFast x ∧ ¬ FailsFast wide tryJoinAllFast x' := by
  refine ⟨by decide +kernel, ?_⟩
  have hrun : ((Transition.run (Execution.step wide tryJoinAllFast)
      (Execution.initial wide tryJoinAllFast [] []) wideFailure).bind fun x =>
        (Transition.run (Execution.step wide tryJoinAllFast) x wideAftermath).map fun x' => decide (
          (.ready "c30", .startBackgroundContainer "c30", .refused) ∈ x.startup.answers ∧
          x.startup.failures = [.ready "c30"] ∧ x.startup.failureOf .execution = none ∧
          x.timesIssued (.createContainer "c00") = 0 ∧ x'.timesIssued (.createContainer "c00") = 1 ∧
          x'.timesIssued (.startBackgroundContainer "c29") = 2)) = some true := by decide +kernel
  obtain ⟨x, hx, hrun'⟩ := Option.bind_eq_some_iff.mp hrun
  obtain ⟨x', hx', hdata⟩ := Option.map_eq_some_iff.mp hrun'
  obtain ⟨hanswer, hfailures, hrunning, hbefore, hafter, htwice⟩ := of_decide_eq_true hdata
  have hreach : Runs wide tryJoinAllFast [] [] x := Transition.reachable_of_run .start hx
  have hlater := Transition.reachable_of_run .start hx'
  refine ⟨x, x', hreach, hreach.trans hlater, hlater, hanswer, hfailures, hrunning, hbefore, hafter,
    htwice, fun hfast => ?_, fun hfast => ?_⟩
  · obtain ⟨f, _, htop, _⟩ := hfast.atOnce (by simp [hfailures])
    simp [Fanout.State.failureOf, htop] at hrunning
  · have honce := hfast.startedOnce "c29"
    omega

/-! ### The parallelism cap -/

/-- The parallelism cap, in every state of every run in which no step has failed or of a graph of at
most thirty containers. -/
theorem execution_parallelism {n : ℕ}
    (hbuild : buildDependencyGraph settings.containers settings.root taskDependencies =
      .ok settings.graph)
    (hcap : settings.maxParallelism = some n) (hn : 1 ≤ n)
    (h : Runs settings tryJoinAllFast pulled built x)
    (hkept : x.startup.failures = [] ∨ settings.graph.keys.length ≤ 30) :
    Parallel settings tryJoinAllFast n x := by
  have hgraph := buildDependencyGraph_spec hbuild
  have hwf := startup_wellFormed hgraph tryJoinAllFast
  refine ⟨h.unblocked hgraph hcap hn, counted_add_le hn ?_ fun hphase hended => ?_⟩
  · rcases hkept with hnil | hsize
    · simpa only [Bool.decide_eq_true] using Fanout.capped_unanswered hwf h.startup hnil hcap
    · have hquick := startup_quick hgraph fun m hm => decide_eq_true (hm.trans hsize)
      simpa only [Bool.decide_eq_true] using
        Fanout.capped_unanswered_of_quick hwf hquick h.startup hcap
  · rw [h.unanswered_eq_nil hgraph hphase hended]
    rfl

/-- A run to the end, and one that the refused start of `db` ends. -/
theorem execution_parallelism_shop :
    (∃ x, Runs shop tryJoinAllFast [] [] x ∧ x.runIssued = true ∧
      Parallel shop tryJoinAllFast 1 x) ∧
    ∃ x, Runs shop tryJoinAllFast [] [] x ∧ x.startup.failures = [.ready "db"] ∧
      Parallel shop tryJoinAllFast 1 x := by
  have hrun : ((Transition.run (Execution.step shop tryJoinAllFast)
      (Execution.initial shop tryJoinAllFast [] []) shopRun).map fun x =>
        decide (x.runIssued = true ∧ x.startup.failures = [])) = some true := by decide +kernel
  have hfail : ((Transition.run (Execution.step shop tryJoinAllFast)
      (Execution.initial shop tryJoinAllFast [] []) shopFailure).map fun x => x.startup.failures) =
        some [.ready "db"] := by decide +kernel
  have hbuild : buildDependencyGraph shop.containers shop.root none = .ok shop.graph := by
    decide +kernel
  constructor
  · obtain ⟨x, hx, hdata⟩ := Transition.exists_reachable_of_run hrun
    obtain ⟨hissued, hnil⟩ := of_decide_eq_true hdata
    exact ⟨x, hx, hissued, execution_parallelism hbuild rfl le_rfl hx (.inl hnil)⟩
  · obtain ⟨x, hx, hfailures⟩ := Transition.exists_reachable_of_run hfail
    exact ⟨x, hx, hfailures, execution_parallelism hbuild rfl le_rfl hx (.inr (by decide))⟩

/-- `wide` with two permits. -/
def wideCapped : Settings := { wide with maxParallelism := some 2 }

/-- After the failure, which dropped the call that starts `c29`, `c00` and `c02` are created with
the two permits. -/
def wideCappedRun : List ExecutionEvent :=
  wideFailure ++ creating "c00" "c00" ++ creating "c02" "c02"

/-- Two permits, and three counted requests at the daemon. -/
theorem wide_over_the_cap :
    buildDependencyGraph wideCapped.containers wideCapped.root none = .ok wideCapped.graph ∧
    wideCapped.maxParallelism = some 2 ∧
    ∃ x, Runs wideCapped tryJoinAllFast [] [] x ∧ x.phase = .startup ∧
      x.startup.failureOf .execution = none ∧
      x.startup.unanswered.filter (fun call => call.2.capped) =
        [(.ready "c29", .startBackgroundContainer "c29"), (.created "c00", .createContainer "c00"),
          (.created "c02", .createContainer "c02")] ∧
      ¬ Parallel wideCapped tryJoinAllFast 2 x := by
  refine ⟨by decide +kernel, rfl, ?_⟩
  have hrun : ((Transition.run (Execution.step wideCapped tryJoinAllFast)
      (Execution.initial wideCapped tryJoinAllFast [] []) wideCappedRun).map fun x => decide (
        x.phase = .startup ∧ x.startup.failureOf .execution = none ∧
        x.startup.unanswered.filter (fun call => call.2.capped) =
          [(.ready "c29", .startBackgroundContainer "c29"),
            (.created "c00", .createContainer "c00"),
            (.created "c02", .createContainer "c02")])) = some true := by decide +kernel
  obtain ⟨x, hx, hdata⟩ := Transition.exists_reachable_of_run hrun
  obtain ⟨hphase, hrunning, hfiltered⟩ := of_decide_eq_true hdata
  refine ⟨x, hx, hphase, hrunning, hfiltered, fun hparallel => ?_⟩
  have hle := hparallel.atDaemon
  rw [hfiltered, hphase] at hle
  exact absurd hle (by decide)

end failing

end Ratect
