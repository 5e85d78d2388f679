import Ratect.SignalLadder

/-! # What a cleanup leaves behind

`Outcome` relates what was removed to what is reported: an attempt that did not remove its
container fails the cleanup, and a failed cleanup ends by listing what is left.  From it, a cleanup
that ends has each container removed or listed, and a run that passes has everything removed. -/

namespace Ratect

/-- The entries with which a cleanup ends. -/
def Entry.isReport : Entry → Bool
  | post (.leftBehind _ _ _) => true
  | post .complete => true
  | post (.kept _) => true
  | _ => false

namespace Cleanup

variable {e : RunEnd} {c c' : Cleanup} {event : CleanupEvent}

/-- What was attempted, and what is said of it. -/
structure Outcome (e : RunEnd) (c : Cleanup) : Prop where
  attempts : ∀ r ∈ c.reported, r.id ∈ c.removed ∨ c.cleanupFailed = true
  network : 5 ≤ c.phase.stage → e.ownsNetwork = true →
    c.networkRemoved = true ∨ c.cleanupFailed = true ∨ c.abandoned = true
  abandoned : c.phase = .finished → c.abandoned = true → c.cleanupFailed = true
  warned : c.phase ≠ .creates → c.unansweredNames = [] ∨
    .post (.unanswered c.unansweredNames) ∈ c.log
  reports : c.log.filter Entry.isReport = if c.phase = .finished then finalPosts e c else []
  made : ∀ name ∈ c.made, (name, .asked) ∈ c.pending ∧ name ∉ c.names
  networkMade : c.networkMade = true → e.ownsNetwork = true ∨ e.networkSent = true
  atNetwork : ∀ base, c.phase = .network base → e.ownsNetwork = true
  owned : c.networkRemoved = true → e.ownsNetwork = true
  pending : e.pending = [] → c.pending = []

/-- An attempt is over. -/
theorem Outcome.attempts_report (h : Outcome e c) (r : Removal) (refusal : Option String) :
    ∀ other ∈ c.reported ++ [r], other.id ∈ (c.report r refusal).removed ∨
      (c.report r refusal).cleanupFailed = true := by
  intro other hother
  unfold report
  cases refusal with
  | some text => simp
  | none =>
      rcases List.mem_append.mp hother with hmem | hmem
      · rcases h.attempts other hmem with hr | hf
        · exact .inl (by simp [hr])
        · exact .inr (by simp [hf])
      · rw [List.mem_singleton.mp hmem]
        exact .inl (by simp)

theorem Outcome.beginRemovals (h : Outcome e c) (hclean : e.shouldCleanup = true)
    (hp : c.phase = .creates) : Outcome e (beginRemovals e c) := by
  unfold Cleanup.beginRemovals
  dsimp only
  rw [if_pos hclean]
  refine { h with
    network := by simp [CleanupPhase.stage]
    abandoned := by simp
    warned := fun _ => ?_
    reports := ?_
    atNetwork := by simp }
  · show c.unansweredNames = [] ∨ .post (.unanswered c.unansweredNames) ∈ c.log ++ c.warnings
    by_cases hnil : c.unansweredNames = []
    · exact .inl hnil
    · exact .inr (by simp [warnings, hnil])
  · have hreports := h.reports
    have hwarnings : c.warnings.filter Entry.isReport = [] := by
      unfold warnings
      split_ifs
      · rfl
      · rfl
    simpa [List.filter_append, hwarnings, hp] using hreports

/-- A step without a report, to the same phase or to another before the end. -/
theorem Outcome.grow (h : Outcome e c) (phase : CleanupPhase) (new : List Entry)
    (hphase : phase = c.phase ∨ phase.stage ≤ 5 ∧ c.phase ≠ .creates ∧ c.phase.stage ≤ 5)
    (hnew : ∀ x ∈ new, x.isReport = false)
    (hat : ∀ base, phase = .network base → e.ownsNetwork = true)
    (hnetwork : phase = .finishing → e.ownsNetwork = true →
      c.networkRemoved = true ∨ c.cleanupFailed = true ∨ c.abandoned = true) : Outcome e { c with
      phase := phase
      log := c.log ++ new } := by
  have hnil : new.filter Entry.isReport = [] := by
    rw [List.filter_eq_nil_iff]
    exact fun x hx => by simp [hnew x hx]
  have hreports := h.reports
  rcases hphase with rfl | ⟨hp, hcreates, hp'⟩
  · refine { h with
      warned := fun hp => (h.warned hp).imp_right (List.mem_append_left _)
      reports := ?_ }
    rw [List.filter_append, hnil, List.append_nil]
    exact hreports
  · have hfinished : phase ≠ .finished := by
      rintro rfl
      simp [CleanupPhase.stage] at hp
    have hfinished' : c.phase ≠ .finished := by
      intro heq
      simp [heq, CleanupPhase.stage] at hp'
    refine { h with
      network := fun hs => hnetwork ?_
      abandoned := fun heq => absurd heq hfinished
      warned := fun _ => (h.warned hcreates).imp_right (List.mem_append_left _)
      reports := ?_
      atNetwork := hat }
    · cases phase with
      | finishing => rfl
      | finished => exact absurd rfl hfinished
      | _ => simp [CleanupPhase.stage] at hs
    · rw [if_neg hfinished'] at hreports
      simp [List.filter_append, hnil, hreports, hfinished]

theorem Outcome.toNetwork (h : Outcome e c) (hp : 2 ≤ c.phase.stage) (hp' : c.phase.stage ≤ 4) :
    Outcome e (toNetwork e c) := by
  have hcreates : c.phase ≠ .creates := by
    intro heq
    simp [heq, CleanupPhase.stage] at hp
  unfold Cleanup.toNetwork
  split_ifs with hnet
  · have howns : e.ownsNetwork = true := by
      rw [Bool.and_eq_true] at hnet
      exact hnet.1
    exact h.grow _ _ (.inr ⟨by simp [CleanupPhase.stage], hcreates, by omega⟩)
      (by simp [Entry.isReport])
      (fun _ _ => howns) (by simp)
  · have hgrown := h.grow .finishing [] (.inr ⟨by simp [CleanupPhase.stage], hcreates, by omega⟩)
      (by simp) (by simp) fun _ howns => .inr (.inr (by simpa [howns] using hnet))
    simpa using hgrown

theorem Outcome.force (h : Outcome e c) (hp : c.phase = .draining) : Outcome e (force e c) := by
  unfold Cleanup.force
  dsimp only
  split_ifs
  · exact h.toNetwork (by simp [hp, CleanupPhase.stage]) (by simp [hp, CleanupPhase.stage])
  · have hgrown := h.grow .forced (.escalated :: .post (.forceRemoving c.interrupt.lastSignal) ::
      (c.inFlight ++ c.queued).map fun r => .forceRequested r.name)
      (.inr (by simp [hp, CleanupPhase.stage])) (fun x hx => ?_) (by simp) (by simp)
    · exact { hgrown with }
    · rcases List.mem_cons.mp hx with rfl | hx
      · rfl
      · rcases List.mem_cons.mp hx with rfl | hx
        · rfl
        · obtain ⟨r, _, rfl⟩ := List.mem_map.mp hx
          rfl

theorem finalPosts_finish (e : RunEnd) (c : Cleanup) :
    finalPosts e (finish e c) = finalPosts e c := by
  unfold finalPosts finish
  simp [left]

theorem filter_finalPosts (e : RunEnd) (c : Cleanup) :
    (finalPosts e c).filter Entry.isReport = finalPosts e c := by
  unfold finalPosts
  split_ifs
  · rfl
  · rfl
  · rfl

theorem step_outcome (hclean : e.shouldCleanup = true) (h : Outcome e c)
    (hstep : step e c event = some c') : Outcome e c' := by
  have hstay : ∀ x : Entry, x.isReport = false → Outcome e { c with log := c.log ++ [x] } :=
    fun x hx => h.grow c.phase [x] (.inl rfl) (by simpa using hx) h.atNetwork fun hp =>
      h.network (by simp [hp, CleanupPhase.stage])
  have hdrain : c.phase.stage = 1 → Outcome e { c with phase := .draining } := by
    intro hs
    have hcreates : c.phase ≠ .creates := by
      intro heq
      simp [heq, CleanupPhase.stage] at hs
    have hgrown := h.grow .draining [] (.inr ⟨by simp [CleanupPhase.stage], hcreates, by omega⟩)
      (by simp) (by simp) (by simp)
    simpa using hgrown
  cases step_cases hstep with
  | @signal s _ => exact { hstay (.signalled s) rfl with }
  | @count s _ => exact { hstay (.counted s) rfl with }
  | @makes name hasked hname _ =>
      refine { h with made := fun other hother => ?_ }
      rcases List.mem_cons.mp hother with rfl | hother
      · exact ⟨hasked, hname⟩
      · exact h.made other hother
  | makesNetwork hsent => exact { h with networkMade := fun _ => .inr hsent }
  | @refused name hp _ hmade =>
      refine { h with
        warned := fun hne => absurd hp hne
        made := fun other hother => ?_
        pending := fun hnil => by simp [h.pending hnil] }
      obtain ⟨hasked, hname⟩ := h.made other hother
      have hne : other ≠ name := fun heq => hmade (heq ▸ hother)
      exact ⟨(List.mem_erase_of_ne (by simp [hne])).mpr hasked, hname⟩
  | @prepared name hp _ =>
      refine { h with
        warned := fun hne => absurd hp hne
        made := fun other hother => ?_
        pending := fun hnil => by simp [h.pending hnil] }
      obtain ⟨hasked, hname⟩ := h.made other hother
      exact ⟨(List.mem_erase_of_ne (by simp)).mpr hasked, hname⟩
  | @registered name id answer pending hp hasked _ _ _ hother =>
      refine { h with
        warned := fun hne => absurd hp hne
        reports := by simpa [hp] using h.reports
        made := fun other hmem => ?_
        pending := fun hnil => by simp [h.pending hnil] at hasked }
      obtain ⟨hmem, hne⟩ := List.mem_filter.mp hmem
      have hne' : other ≠ name := by simpa using hne
      obtain ⟨hasked, hname⟩ := h.made other hmem
      exact ⟨hother other hne' hasked, by simpa [names, hne'] using hname⟩
  | begun hp _ => exact h.beginRemovals hclean hp
  | begunEarly hp _ _ => exact h.beginRemovals hclean hp
  | batch hp =>
      unfold Cleanup.batch
      split_ifs
      · exact hdrain (by simp [hp, CleanupPhase.stage])
      · have hgrown :=
          h.grow .stops ((c.queued.filter c.isReady).map fun r => .stopRequested r.name)
          (.inr (by simp [hp, CleanupPhase.stage])) (fun x hx => ?_) (by simp) (by simp)
        · exact { hgrown with }
        · obtain ⟨r, _, rfl⟩ := List.mem_map.mp hx
          rfl
  | loopEnded hp _ => exact hdrain (by simp [hp, CleanupPhase.stage])
  | loopCut hp _ => exact hdrain (by simp [hp, CleanupPhase.stage])
  | @stopped r refusal hp _ =>
      have hgrown := h.grow .batch [.stopReported r.name] (.inr (by simp [hp, CleanupPhase.stage]))
        (by simp [Entry.isReport]) (by simp) (by simp)
      exact { hgrown with
        attempts := h.attempts_report r refusal
        network := by simp [CleanupPhase.stage]
        abandoned := by simp }
  | @drained r refusal hp _ =>
      have hgrown := hstay (.stopReported r.name) rfl
      exact { hgrown with
        attempts := h.attempts_report r refusal
        network := by simp [Cleanup.stopped, report, hp, CleanupPhase.stage]
        abandoned := by simp [Cleanup.stopped, report, hp]
        reports := by simpa [Cleanup.stopped, report, hp] using hgrown.reports }
  | force hp => exact h.force hp
  | @forceAnswered r refusal hp _ =>
      have hgrown := hstay (.forceReported r.name) rfl
      exact { hgrown with
        attempts := h.attempts_report r refusal
        network := by simp [removedByForce, report, hp, CleanupPhase.stage]
        abandoned := by simp [removedByForce, report, hp]
        reports := by simpa [removedByForce, report, hp] using hgrown.reports }
  | forcedDone hp _ =>
      exact h.toNetwork (by simp [hp, CleanupPhase.stage]) (by simp [hp, CleanupPhase.stage])
  | forcedAbandoned hp _ _ =>
      have hgrown := hstay .abandoned rfl
      have habandoned : Outcome e { c with
          abandoned := true
          log := c.log ++ [.abandoned] } := { hgrown with
        network := by simp
        abandoned := by simp [hp]
        reports := by simpa [hp] using hgrown.reports }
      exact habandoned.toNetwork (by simp [hp, CleanupPhase.stage])
        (by simp [hp, CleanupPhase.stage])
  | @networkAnswered base refusal hp =>
      have hreports := h.reports
      simp only [hp, reduceCtorEq, if_false] at hreports
      refine { h with
        attempts := fun r hr => (h.attempts r hr).imp_right fun hf => by simp [hf]
        network := fun _ _ => ?_
        abandoned := by simp
        warned := fun _ => h.warned (by simp [hp])
        reports := by simpa using hreports
        atNetwork := by simp
        owned := fun _ => h.atNetwork base hp }
      cases refusal with
      | none => exact .inl rfl
      | some text => exact .inr (.inl (by simp))
  | escalated hp _ =>
      exact h.grow _ [.escalated] (.inr (by simp [hp, CleanupPhase.stage]))
        (by simp [Entry.isReport])
        (fun _ _ => h.atNetwork _ hp) (by simp)
  | networkAbandoned hp _ =>
      have habandoned : Outcome e { c with abandoned := true } := { h with
        network := by simp
        abandoned := by simp [hp]
        reports := by simpa [hp] using h.reports }
      exact habandoned.grow .finishing [.abandoned] (.inr (by simp [hp, CleanupPhase.stage]))
        (by simp [Entry.isReport]) (by simp) (by simp)
  | finish hp =>
      have hreports := h.reports
      rw [if_neg (by simp [hp])] at hreports
      refine { h with
        attempts := fun r hr => (h.attempts r hr).imp_right fun hf => by simp [Cleanup.finish, hf]
        network := fun _ howns => ?_
        abandoned := fun _ hab => ?_
        warned := fun _ => (h.warned (by simp [hp])).imp_right (List.mem_append_left _)
        reports := ?_
        atNetwork := by simp [Cleanup.finish] }
      · rcases h.network (by simp [hp, CleanupPhase.stage]) howns with hr | hf | hab
        · exact .inl hr
        · exact .inr (.inl (by simp [Cleanup.finish, hf]))
        · exact .inr (.inr hab)
      · have hab' : c.abandoned = true := hab
        simp [Cleanup.finish, hab']
      · rw [finalPosts_finish, if_pos (show (finish e c).phase = .finished from rfl)]
        show (c.log ++ finalPosts e c).filter Entry.isReport = finalPosts e c
        rw [List.filter_append, hreports, List.nil_append, filter_finalPosts]

theorem runs_outcome (hclean : e.shouldCleanup = true) (h : Runs e c) : Outcome e c := by
  refine h.invariant ?_ fun _ _ _ _ houtcome hstep => step_outcome hclean houtcome hstep
  exact ⟨by simp [start], by simp [start, CleanupPhase.stage], by simp [start], by simp [start],
    by simp [start], by simp [start], fun howns => .inl howns, by simp [start], by simp [start],
    fun hnil => hnil⟩

theorem mem_unansweredNames (c : Cleanup) (name : String) :
    name ∈ c.unansweredNames ↔ (∃ stage, (name, stage) ∈ c.pending) ∧ name ∉ c.names := by
  unfold unansweredNames
  rw [mem_dedupAdjacent, List.mem_insertionSort]
  simp

/-! ### At the end -/

theorem Outcome.mem_log (h : Outcome e c) (hp : c.phase = .finished) {x : Entry}
    (hx : x.isReport = true) : x ∈ c.log ↔ x ∈ finalPosts e c := by
  have hreports := h.reports
  rw [if_pos hp] at hreports
  rw [← hreports, List.mem_filter]
  simp [hx]

/-- A container that was not removed fails the cleanup. -/
theorem Outcome.removed_or_failed (h : Outcome e c) (hparts : Parts e c)
    (hclean : e.shouldCleanup = true) (hp : c.phase = .finished) {r : Removal}
    (hr : r ∈ c.created) : r.id ∈ c.removed ∨ c.cleanupFailed = true := by
  have hmem : r ∈ c.toRemove := by
    rw [hparts.toRemove, if_neg (by simp [hp, hclean])]
    exact (removalOrder_perm e.root c.created).mem_iff.mpr hr
  obtain ⟨hq, hi⟩ := hparts.later (by simp [hp, CleanupPhase.stage])
  rw [← hparts.perm.mem_iff, hq, hi] at hmem
  rcases hparts.last (by simp [hp, CleanupPhase.stage]) with hf | hab
  · exact h.attempts r (by simpa [hf] using hmem)
  · exact .inr (h.abandoned hp hab)

theorem Outcome.network_or_failed (h : Outcome e c) (hp : c.phase = .finished)
    (howns : e.ownsNetwork = true) : c.networkRemoved = true ∨ c.cleanupFailed = true := by
  rcases h.network (by simp [hp, CleanupPhase.stage]) howns with hr | hf | hab
  · exact .inl hr
  · exact .inr hf
  · exact .inr (h.abandoned hp hab)

/-- A failed cleanup lists what it did not remove, and one that did not fail lists nothing. -/
theorem Outcome.mem_leftBehind (h : Outcome e c) (hp : c.phase = .finished) {left : LeftBehind}
    {abandoned : Bool} {refusals : List String} :
    .post (.leftBehind left abandoned refusals) ∈ c.log ↔
      c.cleanupFailed = true ∧ left = c.left e ∧ abandoned = c.abandoned ∧
        refusals = c.refusals := by
  rw [h.mem_log hp rfl]
  unfold finalPosts
  have habandoned := h.abandoned hp
  cases hfailed : c.cleanupFailed with
  | true => simp
  | false =>
      have hnot : c.abandoned = false := by simpa [hfailed] using habandoned
      simp only [hnot, Bool.or_self, Bool.false_eq_true, if_false, false_and, iff_false]
      split_ifs
      · simp
      · simp

theorem Outcome.mem_complete (h : Outcome e c) (hp : c.phase = .finished)
    (hmem : .post .complete ∈ c.log) : c.cleanupFailed = false ∧ e.result = .interrupted := by
  rw [h.mem_log hp rfl] at hmem
  unfold finalPosts at hmem
  split_ifs at hmem with hfailed hresult
  · simp at hmem
  · rw [Bool.or_eq_true, not_or] at hfailed
    exact ⟨by simpa using hfailed.1, hresult⟩
  · cases hmem

/-- The report lists the container. -/
def Lists (c : Cleanup) (r : Removal) : Prop :=
  ∃ left abandoned refusals,
    .post (.leftBehind left abandoned refusals) ∈ c.log ∧ r ∈ left.containers

/-- What has become of every container at the end: removed or listed, never both; of the creates
without an answer or an id, a warning; and of a run that passed, nothing. -/
structure NothingLost (e : RunEnd) (c : Cleanup) : Prop where
  containers : ∀ r ∈ c.created, r.id ∈ c.removed ↔ ¬ c.Lists r
  creates : ∀ name stage, (name, stage) ∈ c.pending → name ∉ c.names →
    ∃ names, .post (.unanswered names) ∈ c.log ∧ name ∈ names
  passed : c.result e = .passed → (∀ r ∈ c.created, r.id ∈ c.removed) ∧ c.made = [] ∧
    (e.ownsNetwork = true → c.networkRemoved = true) ∧
    (c.networkMade = true → c.networkRemoved = true)

end Cleanup

/-- A run of `shop` that ended with the create of `db` unanswered. -/
def shopCut : RunEnd :=
  { shopEnd with
    created := [⟨"app", "1"⟩]
    pending := [("db", .asked)]
    names := by decide
    ids := by decide
    preparing := by simp
    finished := by simp [shopEnd] }

/-- `SIGTERM` cuts the wait for `db` short, and the forced removal of `app` is refused. -/
def shopRefused : List CleanupEvent :=
  [.signal .terminate, .count .terminate, .cutShort, .proceed, .proceed,
    .forceAnswered ⟨"app", "1"⟩ (some "refused"), .proceed, .networkAnswered none, .proceed]

end Ratect
