import Ratect.Strings

/-! # Waiting for a container to become healthy

`wait_for_container_healthy` and `unhealthy_message` (`docker.rs`), with what Docker answers as a
value: the inspections in turn, the events there were when the stream is opened, and those that
arrive on it.  The stream is asked for from the beginning of time, so its first event is the first
of the container's whole history.

Docker runs a health check if the effective test is not empty and does not start with `NONE`.  The
wait only asks whether the test is empty, so it keeps to the rule exactly if the test does not start
with `NONE` (`waits_for_a_verdict_iff`). -/

namespace Ratect.Readiness

/-! ### What Docker answers -/

/-- `HealthcheckResult`: one run of a health check. -/
structure HealthcheckResult where
  exitCode : Option ℤ
  output : Option Text
deriving DecidableEq

/-- `ContainerInspectResponse`, as far as it is read: the effective test, and the log of the check's
runs, each within what may be left out. -/
structure Inspection where
  config : Option (Option (Option (List Text)))
  state : Option (Option (Option (List HealthcheckResult)))
deriving DecidableEq

/-- `EventMessage`, with the time it is from. -/
structure Event where
  container : Text
  action : Option Text
  time : ℕ
deriving DecidableEq

/-- Docker: what it answers to each inspection, its events up to the opening of a stream, what
arrives on the stream from then on, and whether the stream then ends. -/
structure Docker where
  inspects : ℕ → Except String Inspection
  history : List Event
  later : List (Except String Event)
  ends : Bool

/-- An `event` filter: an action, or an action with its details. -/
def actionMatches (filter action : Text) : Bool :=
  action = filter || (filter ++ [':', ' ']).isPrefixOf action

/-- The filters of a stream. -/
def Event.passes (event : Event) (containers events : List Text) : Bool :=
  containers.contains event.container && event.action.any fun action => events.any fun filter =>
    actionMatches filter action

/-- The stream of events since a time, if one is given. -/
def Docker.events (docker : Docker) (since : Option ℕ) (containers events : List Text) :
    List (Except String Event) :=
  ((docker.history.filter fun event =>
    since.any (· ≤ event.time) && event.passes containers events).map .ok) ++
    docker.later.filter fun item =>
      match item with
      | .ok event => event.passes containers events
      | .error _ => true

/-! ### The wait -/

/-- `unhealthy_message`. -/
def unhealthyMessage (lastResult : Option HealthcheckResult) : String :=
  let verdict :=
    "The configured health check did not indicate that the container was healthy within the timeout period."
  match lastResult with
  | none => verdict
  | some lastResult =>
      let exitCode := lastResult.exitCode.getD 0
      let output := lastResult.output.getD []
      let details :=
        if exitCode = 0 then
          "The most recent health check exited with code 0, which usually indicates that the container became " ++
            "healthy just after the timeout period expired."
        else if output = [] then
          s!"The last health check exited with code {exitCode} but did not produce any output."
        else s!"The last health check exited with code {exitCode} and output:\n{String.ofList (trim output)}"
      s!"{verdict} {details}"

/-- `unhealthy_details`, on the answer to its inspection. -/
def unhealthyDetails (inspection : Except String Inspection) : String :=
  unhealthyMessage <|
    match inspection with
    | .ok inspection => ((inspection.state.bind id).bind id).bind List.getLast?
    | .error _ => none

/-- What the wait comes to: whether it asked for events, and its result, if there is one yet. -/
structure Waited where
  askedForEvents : Bool
  result : Option (Except String Unit)

/-- `has_health_check`. -/
def hasHealthCheck (inspection : Inspection) : Bool :=
  ((inspection.config.bind id).bind id).any fun test => test ≠ []

/-- The `match` on the first event. -/
def verdict (docker : Docker) (event : Event) : Except String Unit :=
  match event.action with
  | some action =>
      if action = "health_status: healthy".toList then .ok ()
      else if action = "health_status: unhealthy".toList then
        .error (unhealthyDetails (docker.inspects 1))
      else if action = "die".toList then .error "The container exited before becoming healthy."
      else .error (s!"Unexpected event '{String.ofList action}' received while waiting for the container to become " ++
        "healthy")
  | none =>
      .error "Unexpected event '<none>' received while waiting for the container to become healthy"

/-- `wait_for_container_healthy`. -/
def waitForContainerHealthy (docker : Docker) (containerId : Text) : Waited :=
  match docker.inspects 0 with
  | .error _ => ⟨false, some (.error s!"Failed to inspect container '{String.ofList containerId}'")⟩
  | .ok inspection =>
      if !hasHealthCheck inspection then ⟨false, some (.ok ())⟩
      else
        match docker.events (some 0) [containerId] ["die".toList, "health_status".toList] with
        | .ok event :: _ => ⟨true, some (verdict docker event)⟩
        | .error _ :: _ =>
            ⟨true, some (.error ("Failed to stream Docker events while waiting for the container to become " ++
              "healthy"))⟩
        | [] =>
            if docker.ends then
              ⟨true, some (.error "Docker's event stream ended without reporting a health status")⟩
            else ⟨true, none⟩

/-! ### What it is to wait for a verdict that can come -/

/-- The test that is in effect. -/
def effectiveTest (inspection : Inspection) : List Text :=
  ((inspection.config.bind id).bind id).getD []

/-- Docker runs a health check, and emits `health_status` events for it. -/
def RunsHealthCheck (inspection : Inspection) : Prop :=
  effectiveTest inspection ≠ [] ∧ (effectiveTest inspection).head? ≠ some "NONE".toList

instance (inspection : Inspection) : Decidable (RunsHealthCheck inspection) :=
  inferInstanceAs (Decidable (_ ∧ _))

/-- A `die` or `health_status` event of a container. -/
def Event.IsVerdict (containerId : Text) (event : Event) : Prop :=
  event.container = containerId ∧ ∃ action, event.action = some action ∧
    (actionMatches "die".toList action = true ∨ actionMatches "health_status".toList action = true)

/-- What the first such event of a whole history makes of the wait: nothing yet without one, success
for `healthy`, and an error for `unhealthy` and `die`. -/
def Follows (containerId : Text) (whole : List Event)
    (result : Option (Except String Unit)) : Prop :=
  ((∀ event ∈ whole, ¬ event.IsVerdict containerId) → result = none) ∧
    ∀ before event after, whole = before ++ event :: after →
      (∀ other ∈ before, ¬ other.IsVerdict containerId) →
      event.IsVerdict containerId →
        (event.action = some "health_status: healthy".toList → result = some (.ok ())) ∧
          (event.action = some "health_status: unhealthy".toList ∨
            event.action = some "die".toList →
            ∃ message, result = some (.error message))

/-- The wait is over at once exactly without a running check; otherwise it follows the whole
history, also what was emitted before the stream was opened. -/
def WaitsForAVerdict (docker : Docker) (containerId : Text) (inspection : Inspection) : Prop :=
  ((waitForContainerHealthy docker containerId).askedForEvents = false ∧
      (waitForContainerHealthy docker containerId).result = some (.ok ()) ↔
        ¬ RunsHealthCheck inspection) ∧
    (RunsHealthCheck inspection → ∀ later : List Event, docker.later = later.map .ok →
      docker.ends = false →
      Follows containerId (docker.history ++ later)
        (waitForContainerHealthy docker containerId).result)

theorem hasHealthCheck_iff {inspection : Inspection} :
    hasHealthCheck inspection = true ↔ effectiveTest inspection ≠ [] := by
  unfold hasHealthCheck effectiveTest
  cases (inspection.config.bind id).bind id with
  | none => simp
  | some test => simp

theorem passes_iff {event : Event} {containerId : Text} :
    event.passes [containerId] ["die".toList, "health_status".toList] = true ↔
      event.IsVerdict containerId := by
  unfold Event.passes Event.IsVerdict
  cases event.action with
  | none => simp
  | some action =>
      rw [Bool.and_eq_true, List.contains_iff_mem, List.mem_singleton, Option.any_some,
        List.any_cons, List.any_cons, List.any_nil, Bool.or_false, Bool.or_eq_true]
      constructor
      · rintro ⟨hcontainer, hmatches⟩
        exact ⟨hcontainer, action, rfl, hmatches⟩
      · rintro ⟨hcontainer, other, hother, hmatches⟩
        cases hother
        exact ⟨hcontainer, hmatches⟩

/-- The stream from the beginning of time is the whole history, as far as it is asked for. -/
theorem events_eq {docker : Docker} {later : List Event} (h : docker.later = later.map .ok)
    (containers events : List Text) :
    docker.events (some 0) containers events =
      ((docker.history ++ later).filter fun event => event.passes containers events).map .ok := by
  unfold Docker.events
  rw [h, List.filter_map, List.filter_append, List.map_append]
  simp only [Option.any_some, Nat.zero_le, decide_true, Bool.true_and]
  rfl

/-- The wait on a whole history. -/
theorem wait_follows {docker : Docker} {containerId : Text} {inspection : Inspection}
    {later : List Event} (hinspect : docker.inspects 0 = .ok inspection)
    (hcheck : hasHealthCheck inspection = true) (hlater : docker.later = later.map .ok)
    (hopen : docker.ends = false) :
    Follows containerId (docker.history ++ later)
      (waitForContainerHealthy docker containerId).result := by
  unfold waitForContainerHealthy
  rw [hinspect]
  dsimp only
  rw [if_neg (by simp [hcheck]), events_eq hlater]
  constructor
  · intro hnone
    have hempty : ((docker.history ++ later).filter fun event =>
        event.passes [containerId] ["die".toList, "health_status".toList]) = [] := by
      rw [List.filter_eq_nil_iff]
      intro event hevent hpasses
      exact hnone event hevent (passes_iff.mp hpasses)
    rw [hempty, List.map_nil]
    dsimp only
    rw [if_neg (by simp [hopen])]
  · intro before event after hsplit hbefore hevent
    have hfirst : ((docker.history ++ later).filter fun event =>
        event.passes [containerId] ["die".toList, "health_status".toList]) =
          event :: after.filter fun event =>
            event.passes [containerId] ["die".toList, "health_status".toList] := by
      have hnone : (before.filter fun event =>
          event.passes [containerId] ["die".toList, "health_status".toList]) = [] := by
        rw [List.filter_eq_nil_iff]
        intro other hother hpasses
        exact hbefore other hother (passes_iff.mp hpasses)
      rw [hsplit, List.filter_append, hnone, List.nil_append]
      exact List.filter_cons_of_pos (passes_iff.mpr hevent)
    rw [hfirst, List.map_cons]
    dsimp only
    constructor
    · intro haction
      unfold verdict
      rw [haction]
      rfl
    · rintro (haction | haction)
      · unfold verdict
        rw [haction]
        exact ⟨_, rfl⟩
      · unfold verdict
        rw [haction]
        exact ⟨_, rfl⟩

/-- The wait keeps to the rule exactly for a test that does not start with `NONE`. -/
theorem waits_for_a_verdict_iff (docker : Docker) (containerId : Text) (inspection : Inspection)
    (hinspect : docker.inspects 0 = .ok inspection) :
    WaitsForAVerdict docker containerId inspection ↔
      (effectiveTest inspection).head? ≠ some "NONE".toList := by
  have hdone : (waitForContainerHealthy docker containerId).askedForEvents = false ↔
      effectiveTest inspection = [] := by
    unfold waitForContainerHealthy
    rw [hinspect]
    dsimp only
    by_cases hcheck : hasHealthCheck inspection = true
    · have hnonempty := hasHealthCheck_iff.mp hcheck
      rw [if_neg (by simp [hcheck])]
      refine iff_of_false ?_ hnonempty
      split
      · exact Bool.noConfusion
      · exact Bool.noConfusion
      · split
        · exact Bool.noConfusion
        · exact Bool.noConfusion
    · have hempty := not_not.mp (hasHealthCheck_iff.not.mp hcheck)
      rw [if_pos (by simpa using hcheck)]
      exact iff_of_true rfl hempty
  have hresult : effectiveTest inspection = [] →
      (waitForContainerHealthy docker containerId).result = some (.ok ()) := by
    intro hempty
    have hcheck : hasHealthCheck inspection = false := by
      rw [← Bool.not_eq_true, hasHealthCheck_iff, not_not]
      exact hempty
    unfold waitForContainerHealthy
    rw [hinspect]
    dsimp only
    rw [hcheck]
    rfl
  constructor
  · rintro ⟨honce, -⟩ hnone
    have hruns : ¬ RunsHealthCheck inspection := fun hruns => hruns.2 hnone
    have hempty := hdone.mp (honce.mpr hruns).1
    rw [hempty] at hnone
    cases hnone
  · intro hnone
    constructor
    · unfold RunsHealthCheck
      rw [hdone]
      constructor
      · rintro ⟨hempty, -⟩ ⟨hnonempty, -⟩
        exact hnonempty hempty
      · intro hruns
        have hempty : effectiveTest inspection = [] := by
          by_contra hnonempty
          exact hruns ⟨hnonempty, hnone⟩
        exact ⟨hempty, hresult hempty⟩
    · rintro ⟨hnonempty, -⟩ later hlater hopen
      exact wait_follows hinspect (hasHealthCheck_iff.mpr hnonempty) hlater hopen

/-- A container `c` that reports to be healthy before the stream is opened. -/
def healthyEarly : Docker where
  inspects _ := .ok ⟨some (some (some ["CMD".toList, "true".toList])), none⟩
  history := [⟨['c'], some "health_status: healthy".toList, 1⟩]
  later := []
  ends := false

theorem waits_for_a_verdict_early :
    WaitsForAVerdict healthyEarly ['c'] ⟨some (some (some ["CMD".toList, "true".toList])), none⟩ :=
  (waits_for_a_verdict_iff healthyEarly ['c'] _ rfl).mpr (by decide)

/-- A container whose image says `HEALTHCHECK NONE`: Docker runs no check, so nothing arrives while
it runs. -/
def noHealthCheck : Docker where
  inspects _ := .ok ⟨some (some (some ["NONE".toList])), none⟩
  history := []
  later := []
  ends := false

/-- Its wait is not over. -/
theorem no_health_check_waits :
    ¬ RunsHealthCheck ⟨some (some (some ["NONE".toList])), none⟩ ∧
      (waitForContainerHealthy noHealthCheck ['c']).result = none ∧
      ¬ WaitsForAVerdict noHealthCheck ['c'] ⟨some (some (some ["NONE".toList])), none⟩ := by
  refine ⟨by decide, rfl, ?_⟩
  rintro ⟨honce, -⟩
  have hdone := (honce.mpr (by decide)).2
  cases hdone

end Ratect.Readiness
