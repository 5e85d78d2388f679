import Ratect.CleanupOutcome

/-! # When a cleanup is complete

`Accounted` says that a network the daemon has made is removed or named, and that a cleanup called
complete leaves nothing.  The code knows of its network only once the create has been answered, so
that a run which ends before that loses it; and after a wait for a container's create that was cut
short, it still ends with `Cleanup complete.`.

`PatientRuns` are the cleanups that cut no such wait short.  All of them account for everything if
and only if the run did not end with the network's create unanswered (`cleanup_accounted_iff`): in
that case a cleanup in which the daemon makes the network can still end, as every cleanup can
(`PatientRuns.exists_finished`), and says nothing of it. -/

namespace Ratect

/-- The network that a post names. -/
def Post.network : Post → Option String
  | leftBehind left _ _ => left.network
  | kept left => left.network
  | _ => none

namespace Cleanup

variable {e : RunEnd} {c c' : Cleanup} {event : CleanupEvent}

/-- At its end the network is removed or named, and where cleanup is called complete nothing is
left. -/
structure Accounted (c : Cleanup) : Prop where
  network : c.phase = .finished → c.networkMade = true →
    c.networkRemoved = true ∨ ∃ p network, .post p ∈ c.log ∧ p.network = some network
  complete : .post .complete ∈ c.log → c.made = [] ∧ (∀ r ∈ c.created, r.id ∈ c.removed) ∧
    (c.networkMade = true → c.networkRemoved = true)

/-- A step that, after a signal ended the run, gives up no create without an answer and an id. -/
def patientStep (e : RunEnd) (c : Cleanup) (event : CleanupEvent) : Option Cleanup :=
  if e.result = .interrupted ∧ event = .cutShort ∧ c.phase = .creates ∧
    c.unansweredNames ≠ [] then none
  else step e c event

/-- The cleanups of such steps. -/
def PatientRuns (e : RunEnd) : Cleanup → Prop := Transition.Reachable (patientStep e) (start e)

theorem step_of_patientStep (h : patientStep e c event = some c') : step e c event = some c' := by
  unfold patientStep at h
  split_ifs at h
  exact h

theorem PatientRuns.runs (h : PatientRuns e c) : Runs e c := by
  refine Transition.Reachable.invariant (P := Runs e) .start ?_ h
  intro _ _ _ _ hr hstep
  exact hr.next (step_of_patientStep hstep)

/-- What a step keeps: a network made, and past the creates everything about them. -/
theorem step_keeps (hstep : step e c event = some c') :
    (c.networkMade = true → c'.networkMade = true) ∧
      (c.phase ≠ .creates → c'.phase ≠ .creates ∧ c'.unansweredNames = c.unansweredNames) := by
  have hnetwork : ∀ c : Cleanup, (toNetwork e c).networkMade = c.networkMade ∧
      (toNetwork e c).phase ≠ .creates ∧ (toNetwork e c).unansweredNames = c.unansweredNames := by
    intro c
    unfold toNetwork
    split_ifs
    · exact ⟨rfl, by simp, rfl⟩
    · exact ⟨rfl, by simp, rfl⟩
  have hbegin : (Cleanup.beginRemovals e c).networkMade = c.networkMade := by
    unfold Cleanup.beginRemovals
    dsimp only
    split_ifs
    · rfl
    · rfl
  cases step_cases hstep with
  | signal _ => exact ⟨id, fun hp => ⟨hp, rfl⟩⟩
  | count _ => exact ⟨id, fun hp => ⟨hp, rfl⟩⟩
  | makes _ _ _ => exact ⟨id, fun hp => ⟨hp, rfl⟩⟩
  | makesNetwork _ => exact ⟨fun _ => rfl, fun hp => ⟨hp, rfl⟩⟩
  | refused hp _ _ => exact ⟨id, fun hne => absurd hp hne⟩
  | prepared hp _ => exact ⟨id, fun hne => absurd hp hne⟩
  | registered hp _ _ _ _ _ => exact ⟨id, fun hne => absurd hp hne⟩
  | begun hp _ => exact ⟨fun h => hbegin.trans h, fun hne => absurd hp hne⟩
  | begunEarly hp _ _ => exact ⟨fun h => hbegin.trans h, fun hne => absurd hp hne⟩
  | batch _ =>
      unfold Cleanup.batch
      split_ifs
      · exact ⟨id, fun _ => ⟨by simp, rfl⟩⟩
      · exact ⟨id, fun _ => ⟨by simp, rfl⟩⟩
  | loopEnded _ _ => exact ⟨id, fun _ => ⟨by simp, rfl⟩⟩
  | loopCut _ _ => exact ⟨id, fun _ => ⟨by simp, rfl⟩⟩
  | stopped _ _ => exact ⟨id, fun _ => ⟨by simp, rfl⟩⟩
  | drained _ _ => exact ⟨id, fun hp => ⟨hp, rfl⟩⟩
  | force _ =>
      unfold Cleanup.force
      dsimp only
      split_ifs
      · obtain ⟨hmade, hp, hnames⟩ := hnetwork c
        exact ⟨fun h => hmade.trans h, fun _ => ⟨hp, hnames⟩⟩
      · exact ⟨id, fun _ => ⟨by simp, rfl⟩⟩
  | forceAnswered _ _ => exact ⟨id, fun hp => ⟨hp, rfl⟩⟩
  | forcedDone _ _ =>
      obtain ⟨hmade, hp, hnames⟩ := hnetwork c
      exact ⟨fun h => hmade.trans h, fun _ => ⟨hp, hnames⟩⟩
  | forcedAbandoned _ _ _ =>
      obtain ⟨hmade, hp, hnames⟩ := hnetwork { c with
        abandoned := true
        log := c.log ++ [.abandoned] }
      exact ⟨fun h => hmade.trans h, fun _ => ⟨hp, hnames⟩⟩
  | networkAnswered _ => exact ⟨id, fun _ => ⟨by simp, rfl⟩⟩
  | escalated _ _ => exact ⟨id, fun _ => ⟨by simp, rfl⟩⟩
  | networkAbandoned _ _ => exact ⟨id, fun _ => ⟨by simp, rfl⟩⟩
  | finish _ => exact ⟨id, fun _ => ⟨by simp [Cleanup.finish], rfl⟩⟩

/-- Past the creates, a patient cleanup has an answer or an id for each of them. -/
theorem PatientRuns.answered (h : PatientRuns e c) (hresult : e.result = .interrupted)
    (hp : c.phase ≠ .creates) : c.unansweredNames = [] := by
  refine Transition.Reachable.invariant (P := fun c => c.phase ≠ .creates → c.unansweredNames = [])
    (fun hne => absurd rfl hne) ?_ h hp
  intro c event c' _ hanswered hstep hp'
  have hkeeps := (step_keeps (step_of_patientStep hstep)).2
  by_cases hp : c.phase = .creates
  · unfold patientStep at hstep
    split_ifs at hstep with himpatient
    have hbegin : (Cleanup.beginRemovals e c).unansweredNames = c.unansweredNames := by
      unfold Cleanup.beginRemovals
      dsimp only
      split_ifs
      · rfl
      · rfl
    cases step_cases hstep with
    | begun _ hnil =>
        rw [hbegin]
        simp [unansweredNames, hnil, dedupAdjacent]
    | begunEarly _ _ _ =>
        rw [hbegin]
        simpa [hp, hresult] using himpatient
    | _ => simp_all
  · rw [(hkeeps hp).2]
    exact hanswered hp

/-- A cleanup is called complete at its end only. -/
theorem Outcome.finished_of_report (h : Outcome e c) {x : Entry} (hx : x.isReport = true)
    (hmem : x ∈ c.log) : c.phase = .finished := by
  by_contra hp
  have hreports := h.reports
  rw [if_neg hp, List.filter_eq_nil_iff] at hreports
  exact hreports x hmem hx

theorem PatientRuns.accounted (h : PatientRuns e c) (hclean : e.shouldCleanup = true)
    (hsent : e.networkSent = true → e.ownsNetwork = true) : Accounted c := by
  have hparts := runs_parts h.runs
  have houtcome := runs_outcome hclean h.runs
  have howns : c.networkMade = true → e.ownsNetwork = true := fun hmade =>
    (houtcome.networkMade hmade).elim id hsent
  refine ⟨fun hp hmade => ?_, fun hcomplete => ?_⟩
  · have how := howns hmade
    rcases houtcome.network_or_failed hp how with hr | hf
    · exact .inl hr
    · by_cases hr : c.networkRemoved = true
      · exact .inl hr
      · obtain ⟨network, hnetwork⟩ := Option.isSome_iff_exists.mp (Bool.and_eq_true_iff.mp how).2
        refine .inr ⟨.leftBehind (c.left e) c.abandoned c.refusals, network,
          (houtcome.mem_leftBehind hp).mpr ⟨hf, rfl, rfl, rfl⟩, ?_⟩
        simp [Post.network, Cleanup.left, how, hr, hnetwork]
  · have hp := houtcome.finished_of_report rfl hcomplete
    obtain ⟨hf, hresult⟩ := houtcome.mem_complete hp hcomplete
    refine ⟨?_, fun r hr => ?_, fun hmade => ?_⟩
    · rw [List.eq_nil_iff_forall_not_mem]
      intro name hname
      obtain ⟨hasked, hunknown⟩ := houtcome.made name hname
      have hmem := (mem_unansweredNames c name).mpr ⟨⟨_, hasked⟩, hunknown⟩
      rw [h.answered hresult (by simp [hp])] at hmem
      cases hmem
    · exact (houtcome.removed_or_failed hparts hclean hp hr).resolve_right (by simp [hf])
    · exact (houtcome.network_or_failed hp (howns hmade)).resolve_right (by simp [hf])

/-! ### Every cleanup can end -/

/-- The work left to a cleanup, when the daemon answers everything. -/
def rank (c : Cleanup) : ℕ :=
  match c.phase with
  | .creates => 8 + 2 * c.created.length + 3 * c.pending.length
  | .batch => 7 + 2 * (c.queued.length + c.inFlight.length)
  | .stops => 6 + 2 * (c.queued.length + c.inFlight.length)
  | .draining => 5 + (c.queued.length + c.inFlight.length)
  | .forced => 3 + c.forced.length
  | .network _ => 2
  | .finishing => 1
  | .finished => 0

theorem rank_toNetwork (e : RunEnd) (c : Cleanup) : rank (toNetwork e c) ≤ 2 := by
  unfold toNetwork
  split_ifs
  · exact le_rfl
  · exact Nat.le_succ 1

theorem length_filter_ne_lt {l : List Removal} {r : Removal} (hr : r ∈ l) :
    (l.filter fun other => other.id ≠ r.id).length < l.length := by
  rw [List.length_filter_lt_length_iff_exists]
  exact ⟨r, hr, by simp⟩

/-- The daemon answers a create that is pending. -/
theorem exists_create_answer (houtcome : Outcome e c) (hp : c.phase = .creates)
    (hne : c.pending ≠ []) :
    ∃ event c', event ≠ .cutShort ∧ step e c event = some c' ∧ rank c' < rank c := by
  obtain ⟨⟨name, stage⟩, hmem⟩ := List.exists_mem_of_ne_nil _ hne
  have hlength : ∀ p ∈ c.pending, (c.pending.erase p).length < c.pending.length := by
    intro p hmem
    rw [List.length_erase_of_mem hmem]
    have hpos := List.length_pos_of_mem hmem
    omega
  have hlt := hlength _ hmem
  cases stage with
  | preparing =>
      refine ⟨.prepared name, { c with pending := c.pending.erase (name, .preparing) }, by simp,
        by simp [step, hp, hmem], ?_⟩
      simp only [rank, hp]
      omega
  | asked =>
      by_cases hmade : name ∈ c.made
      · have hname := (houtcome.made name hmade).2
        obtain ⟨id, hid⟩ := Infinite.exists_notMem_finset (c.created.map Removal.id).toFinset
        rw [List.mem_toFinset] at hid
        refine ⟨.createAnswered name (.refusedCreated id), { c with
            created := c.created ++ [⟨name, id⟩]
            pending := c.pending.erase (name, .asked)
            made := c.made.filter fun other => other ≠ name },
          by simp, by simp [step, hp, hmem, register, hname, hid], ?_⟩
        simp only [rank, hp, List.length_append, List.length_singleton]
        omega
      · refine ⟨.createAnswered name .refused, { c with pending := c.pending.erase (name, .asked) },
          by simp, by simp [step, hp, hmem, hmade], ?_⟩
        simp only [rank, hp]
        omega

/-- Before its end, a cleanup has a step that leaves less to do. -/
theorem exists_next (hparts : Parts e c) (houtcome : Outcome e c) (hp : c.phase ≠ .finished) :
    ∃ event c', event ≠ .cutShort ∧ step e c event = some c' ∧ rank c' < rank c := by
  cases hphase : c.phase with
  | creates =>
      by_cases hnil : c.pending = []
      · refine ⟨.proceed, Cleanup.beginRemovals e c, by simp, by simp [step, hphase, hnil], ?_⟩
        obtain ⟨_, hinFlight, _⟩ := hparts.eq_nil_of_creates hphase
        have hlength := (removalOrder_perm e.root c.created).length_eq
        unfold Cleanup.beginRemovals
        dsimp only
        split_ifs
        · simp only [rank, hphase, hlength, hinFlight, List.length_nil]
          omega
        · simp only [rank, hphase]
          omega
      · exact exists_create_answer houtcome hphase hnil
  | batch =>
      refine ⟨.proceed, Cleanup.batch e c, by simp, by simp [step, hphase], ?_⟩
      unfold Cleanup.batch
      split_ifs
      · simp only [rank, hphase]
        omega
      · have hsplit := (List.filter_append_perm c.isReady c.queued).length_eq
        simp only [rank, hphase, List.length_append] at hsplit ⊢
        omega
  | stops =>
      by_cases hnil : c.inFlight = []
      · refine ⟨.proceed, { c with phase := .draining }, by simp, by simp [step, hphase, hnil], ?_⟩
        simp only [rank, hphase]
        omega
      · obtain ⟨r, hr⟩ := List.exists_mem_of_ne_nil _ hnil
        refine ⟨.stopAnswered r none, _, by simp, by simp only [step, hphase, hr, if_true]; rfl, ?_⟩
        have hlt := length_filter_ne_lt hr
        simp only [rank, hphase, Cleanup.stopped, report]
        omega
  | draining =>
      refine ⟨.proceed, Cleanup.force e c, by simp, by simp [step, hphase], ?_⟩
      unfold Cleanup.force
      dsimp only
      split_ifs
      · have hle := rank_toNetwork e c
        simp only [rank, hphase] at hle ⊢
        omega
      · simp only [rank, hphase, List.length_append]
        omega
  | forced =>
      by_cases hnil : c.forced = []
      · refine ⟨.proceed, toNetwork e c, by simp, by simp [step, hphase, hnil], ?_⟩
        have hle := rank_toNetwork e c
        simp only [rank, hphase] at hle ⊢
        omega
      · obtain ⟨r, hr⟩ := List.exists_mem_of_ne_nil _ hnil
        refine ⟨.forceAnswered r none, _, by
          simp, by simp only [step, hphase, hr, and_self, if_true]; rfl, ?_⟩
        have hlt := length_filter_ne_lt hr
        simp only [rank, hphase, removedByForce, report]
        omega
  | network base =>
      refine ⟨.networkAnswered none, _, by simp, by simp only [step, hphase]; rfl, ?_⟩
      simp only [rank, hphase]
      omega
  | finishing =>
      refine ⟨.proceed, finish e c, by simp, by simp [step, hphase], ?_⟩
      simp only [rank, hphase, finish]
      omega
  | finished => exact absurd hphase hp

/-- From every state, a patient cleanup can end, and a network once made is still made then. -/
theorem PatientRuns.exists_finished (h : PatientRuns e c) (hclean : e.shouldCleanup = true)
    (hmade : c.networkMade = true) :
    ∃ c', PatientRuns e c' ∧ c'.phase = .finished ∧ c'.networkMade = true := by
  have hnext : ∀ c, (PatientRuns e c ∧ c.networkMade = true) → ¬ c.phase = .finished →
      ∃ event c', patientStep e c event = some c' ∧
        (PatientRuns e c' ∧ c'.networkMade = true) ∧ rank c' < rank c := by
    rintro c ⟨hruns, hmade⟩ hp
    obtain ⟨event, c', hevent, hstep, hlt⟩ :=
      exists_next (runs_parts hruns.runs) (runs_outcome hclean hruns.runs) hp
    have hpatient : patientStep e c event = some c' := by
      unfold patientStep
      rw [if_neg (by simp [hevent])]
      exact hstep
    exact ⟨event, c', hpatient, ⟨hruns.next hpatient, (step_keeps hstep).1 hmade⟩, hlt⟩
  obtain ⟨c', _, ⟨hruns, hmade'⟩, hp⟩ := Transition.exists_reachable_of_rank rank hnext ⟨h, hmade⟩
  exact ⟨c', hruns, hp, hmade'⟩

/-- A network that the run does not know of is neither removed nor named. -/
theorem Outcome.not_accounted (h : Outcome e c) (howns : e.ownsNetwork = false)
    (hp : c.phase = .finished) (hmade : c.networkMade = true) : ¬ Accounted c := by
  intro haccounted
  rcases haccounted.network hp hmade with hr | ⟨p, network, hpost, hnamed⟩
  · have hknown := h.owned hr
    simp [howns] at hknown
  · cases p with
    | leftBehind left abandoned refusals =>
        obtain ⟨_, rfl, _, _⟩ := (h.mem_leftBehind hp).mp hpost
        simp [Post.network, Cleanup.left, howns] at hnamed
    | kept left =>
        rw [h.mem_log hp rfl] at hpost
        unfold finalPosts at hpost
        split_ifs at hpost
        · simp at hpost
        · simp at hpost
        · simp at hpost
    | _ => cases hnamed

/-- Every patient cleanup accounts for everything if and only if the run did not end with the
network's create sent and unanswered. -/
theorem cleanup_accounted_iff (hclean : e.shouldCleanup = true) :
    (∀ c, PatientRuns e c → Accounted c) ↔ (e.networkSent = true → e.ownsNetwork = true) := by
  constructor
  · intro hall hsent
    by_contra howns
    have howns' : e.ownsNetwork = false := by simpa using howns
    have hmakes : patientStep e (start e) .makesNetwork =
        some { start e with networkMade := true } := by
      simp [patientStep, step, hsent, start, howns']
    have hstart : PatientRuns e { start e with networkMade := true } :=
      Transition.Reachable.start.next hmakes
    obtain ⟨c, hruns, hp, hmade⟩ := hstart.exists_finished hclean rfl
    exact (runs_outcome hclean hruns.runs).not_accounted howns' hp hmade (hall c hruns)
  · intro hsent c hruns
    exact hruns.accounted hclean hsent

end Cleanup

/-- `SIGINT` ends the run of `shop` while its network is being created. -/
def shopInterrupted : RunEnd :=
  { shopEnd with
    networkName := none
    networkSent := true
    created := []
    names := by decide
    ids := by decide
    preparing := by simp [shopEnd]
    finished := by simp [shopEnd] }

/-- Everything is stopped and removed, the network last. -/
def shopRemoved : List CleanupEvent :=
  [.proceed, .proceed, .stopAnswered ⟨"app", "1"⟩ none, .proceed, .stopAnswered ⟨"db", "2"⟩ none,
    .proceed, .proceed, .proceed, .networkAnswered none, .proceed]

theorem cleanup_accounted_iff_shop :
    (∃ c, Cleanup.PatientRuns shopEnd c ∧ .post .complete ∈ c.log ∧ Cleanup.Accounted c) ∧
      ¬ ∀ c, Cleanup.PatientRuns shopInterrupted c → Cleanup.Accounted c := by
  have hrun : ((Transition.run (Cleanup.patientStep shopEnd)
      (Cleanup.start shopEnd) shopRemoved).map
      fun c => decide (.post .complete ∈ c.log)) = some true := by decide +kernel
  obtain ⟨c, hc, hdata⟩ := Transition.exists_reachable_of_run hrun
  have hall := (Cleanup.cleanup_accounted_iff (e := shopEnd) (by decide)).mpr (by decide)
  refine ⟨⟨c, hc, of_decide_eq_true hdata, hall c hc⟩, fun hlost => ?_⟩
  have howns := (Cleanup.cleanup_accounted_iff (e := shopInterrupted) (by decide)).mp hlost rfl
  exact absurd howns (by decide)

theorem shop_built : buildDependencyGraph shop.containers shop.root none = .ok shop.graph :=
  by decide

/-- The daemon creates the network all the same, nothing removes or names it, and cleanup says that
it is complete. -/
theorem shop_loses_network :
    ∃ (x : Execution) (h : Runs shop tryJoinAllFast [] [] x) (hend : x.EndsAs .interrupted)
      (c : Cleanup),
      Cleanup.Runs (x.runEnd shop_built h hend Function.injective_id "ratect-run" "run"
        (Interrupt.new.recordSignal .interrupt) [] true true true) c ∧
      c.phase = .finished ∧ c.networkMade = true ∧ c.networkRemoved = false ∧
      c.log = [.post .complete] ∧ ¬ Cleanup.Accounted c := by
  have hrun : ((Transition.run (Execution.step shop tryJoinAllFast)
      (Execution.initial shop tryJoinAllFast [] []) [.startup (.send .execution)]).map fun x =>
        decide (x.phase = .startup ∧ x.startup.unanswered = [(.execution, .createNetwork)] ∧
          x.startup.answers = [] ∧ x.pendingCreates = [])) = some true := by decide +kernel
  obtain ⟨x, hx, hdata⟩ := Transition.exists_reachable_of_run hrun
  obtain ⟨hphase, hunanswered, hanswers, hpending⟩ := of_decide_eq_true hdata
  have hend : x.EndsAs .interrupted := by simp [Execution.EndsAs, hphase]
  have heq : x.runEnd shop_built hx hend Function.injective_id "ratect-run" "run"
      (Interrupt.new.recordSignal .interrupt) [] true true true = shopInterrupted := by
    simp [Execution.runEnd, shopInterrupted, shopEnd, hunanswered, hpending, Execution.createdNames,
      hanswers, Execution.networkNameCell, shop]
  have hclean : ((Transition.run (Cleanup.step shopInterrupted) (Cleanup.start shopInterrupted)
      [.makesNetwork, .proceed, .proceed, .proceed, .proceed, .proceed]).map fun c =>
        decide (c.phase = .finished ∧ c.networkMade = true ∧ c.networkRemoved = false ∧
          c.log = [.post .complete])) = some true := by decide +kernel
  obtain ⟨c, hc, hdata⟩ := Transition.exists_reachable_of_run hclean
  obtain ⟨hp, hmade, hremoved, hlog⟩ := of_decide_eq_true hdata
  refine ⟨x, hx, hend, c, by rw [heq]; exact hc, hp, hmade, hremoved, hlog, fun haccounted => ?_⟩
  have hall := (haccounted.complete (by simp [hlog])).2.2 hmade
  simp [hremoved] at hall

end Ratect
