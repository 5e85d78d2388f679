import Ratect.StopOrder

/-! # Where a cleanup has each container

`Cleanup.step_cases` lists the steps of a cleanup.  `Parts` says where each container is: queued,
being stopped, being removed by force, or reported, each in one of them, and in which phases the
parts are empty. -/

namespace Ratect

open PostOrder (Edge)

/-! ### What a step can do -/

namespace Cleanup

variable {e : RunEnd} {c c' : Cleanup} {event : CleanupEvent}

/-- The steps, one form each, with their guards. -/
inductive Step (e : RunEnd) (c : Cleanup) : CleanupEvent → Cleanup → Prop
  | signal {s : TerminationSignal} : s ∉ c.recording → Step e c (.signal s) { c with
      recording := s :: c.recording
      interrupt := c.interrupt.noteSignal s
      log := c.log ++ [.signalled s] }
  | count {s : TerminationSignal} : s ∈ c.recording → Step e c (.count s) { c with
      recording := c.recording.erase s
      interrupt := c.interrupt.raiseCount
      log := c.log ++ [.counted s] }
  | makes {name : String} : (name, .asked) ∈ c.pending → name ∉ c.names → name ∉ c.made →
      Step e c (.makes name) { c with made := name :: c.made }
  | makesNetwork : e.networkSent = true → Step e c .makesNetwork { c with networkMade := true }
  | registered {name id : String} {answer : CreateAnswer} {pending : List (String × Stage)} :
      c.phase = .creates → (name, .asked) ∈ c.pending → name ∉ c.names →
      id ∉ c.created.map Removal.id →
      (∀ p ∈ pending, p ∈ c.pending ∨ p = (name, .preparing)) →
      (∀ other, other ≠ name → (other, .asked) ∈ c.pending → (other, .asked) ∈ pending) →
      Step e c (.createAnswered name answer) { c with
        created := c.created ++ [⟨name, id⟩]
        pending := pending
        made := c.made.filter fun other => other ≠ name }
  | refused {name : String} : c.phase = .creates → (name, .asked) ∈ c.pending → name ∉ c.made →
      Step e c (.createAnswered name .refused) { c with pending := c.pending.erase (name, .asked) }
  | prepared {name : String} : c.phase = .creates → (name, .preparing) ∈ c.pending →
      Step e c (.prepared name) { c with pending := c.pending.erase (name, .preparing) }
  | begun : c.phase = .creates → c.pending = [] → Step e c .proceed (beginRemovals e c)
  | begunEarly : c.phase = .creates → c.pending ≠ [] → e.escalateAt ≤ c.interrupt.count →
      Step e c .cutShort (beginRemovals e c)
  | batch : c.phase = .batch → Step e c .proceed (batch e c)
  | loopEnded : c.phase = .stops → c.inFlight = [] →
      Step e c .proceed { c with phase := .draining }
  | loopCut : c.phase = .stops → e.escalateAt ≤ c.interrupt.count →
      Step e c .cutShort { c with phase := .draining }
  | stopped {r : Removal} {refusal : Option String} : c.phase = .stops → r ∈ c.inFlight →
      Step e c (.stopAnswered r refusal) { c.stopped r refusal with
        phase := .batch
        waiting := c.waiting.map fun entry => (entry.1, entry.2.filter fun d => d ≠ r.name) }
  | drained {r : Removal} {refusal : Option String} : c.phase = .draining → r ∈ c.inFlight →
      Step e c (.stopAnswered r refusal) (c.stopped r refusal)
  | force : c.phase = .draining → Step e c .proceed (force e c)
  | forceAnswered {r : Removal} {refusal : Option String} : c.phase = .forced → r ∈ c.forced →
      Step e c (.forceAnswered r refusal) (c.removedByForce r refusal)
  | forcedDone : c.phase = .forced → c.forced = [] → Step e c .proceed (toNetwork e c)
  | forcedAbandoned {interrupts : ℕ} : c.phase = .forced →
      c.interruptsAtEscalation = some interrupts → interrupts + 1 ≤ c.interrupt.interrupts →
      Step e c .abandon (toNetwork e { c with
        abandoned := true
        log := c.log ++ [.abandoned] })
  | networkAnswered {base : Option ℕ} {refusal : Option String} : c.phase = .network base →
      Step e c (.networkAnswered refusal) { c with
        phase := .finishing
        networkRemoved := refusal.isNone
        cleanupFailed := c.cleanupFailed || refusal.isSome
        refusals := c.refusals ++ refusal.toList }
  | escalated : c.phase = .network none → e.escalateAt ≤ c.interrupt.count →
      Step e c .escalate { c with
        phase := .network (some c.interrupt.interrupts)
        log := c.log ++ [.escalated] }
  | networkAbandoned {interrupts : ℕ} : c.phase = .network (some interrupts) →
      interrupts + 1 ≤ c.interrupt.interrupts →
      Step e c .abandon { c with
        phase := .finishing
        abandoned := true
        log := c.log ++ [.abandoned] }
  | finish : c.phase = .finishing → Step e c .proceed (finish e c)

theorem register_cases {name id : String} {c' : Cleanup} (h : c.register name id = some c') :
    name ∉ c.names ∧ id ∉ c.created.map Removal.id ∧ c' = { c with
      created := c.created ++ [⟨name, id⟩]
      pending := c.pending.erase (name, .asked)
      made := c.made.filter fun other => other ≠ name } := by
  unfold register at h
  split_ifs at h with hc
  exact ⟨hc.1, hc.2, (Option.some.inj h).symm⟩

theorem step_cases (h : step e c event = some c') : Step e c event c' := by
  have herase : ∀ (p : String × Stage) (name : String), p ∈ c.pending.erase (name, .asked) →
      p ∈ c.pending ∨ p = (name, .preparing) := fun p name hp => .inl (List.mem_of_mem_erase hp)
  have hother : ∀ name other : String, other ≠ name → (other, Stage.asked) ∈ c.pending →
      (other, Stage.asked) ∈ c.pending.erase (name, .asked) := by
    intro name other hne hmem
    exact (List.mem_erase_of_ne (by simp [hne])).mpr hmem
  unfold step at h
  split at h
  · split_ifs at h with hc
    obtain rfl := Option.some.inj h
    exact .signal hc
  · split_ifs at h with hc
    obtain rfl := Option.some.inj h
    exact .count hc
  · split_ifs at h with hc
    obtain rfl := Option.some.inj h
    exact .makes hc.1 hc.2.1 hc.2.2
  · split_ifs at h with hc
    obtain rfl := Option.some.inj h
    exact .makesNetwork hc.1
  · split at h
    · next hc =>
        split at h
        · obtain ⟨c₁, hc₁, rfl⟩ := Option.map_eq_some_iff.mp h
          obtain ⟨hname, hid, rfl⟩ := register_cases hc₁
          split_ifs
          · refine .registered hc.1 hc.2 hname hid (fun p hp => ?_) fun other hne hmem =>
              List.mem_cons_of_mem _ (hother _ other hne hmem)
            rcases List.mem_cons.mp hp with rfl | hp
            · exact .inr rfl
            · exact herase p _ hp
          · exact .registered hc.1 hc.2 hname hid (fun p hp => herase p _ hp) (hother _)
        · obtain ⟨hname, hid, rfl⟩ := register_cases h
          exact .registered hc.1 hc.2 hname hid (fun p hp => herase p _ hp) (hother _)
        · split_ifs at h with hm
          obtain rfl := Option.some.inj h
          exact .refused hc.1 hc.2 hm
    · cases h
  · split_ifs at h with hc
    obtain rfl := Option.some.inj h
    exact .prepared hc.1 hc.2
  · split at h
    · next hp =>
        split_ifs at h with hc
        obtain rfl := Option.some.inj h
        exact .begun hp hc
    · next hp =>
        obtain rfl := Option.some.inj h
        exact .batch hp
    · next hp =>
        split_ifs at h with hc
        obtain rfl := Option.some.inj h
        exact .loopEnded hp hc
    · next hp =>
        obtain rfl := Option.some.inj h
        exact .force hp
    · next hp =>
        split_ifs at h with hc
        obtain rfl := Option.some.inj h
        exact .forcedDone hp hc
    · cases h
    · next hp =>
        obtain rfl := Option.some.inj h
        exact .finish hp
    · cases h
  · split at h
    · next hp =>
        split_ifs at h with hc
        obtain rfl := Option.some.inj h
        exact .begunEarly hp hc.1 hc.2
    · next hp =>
        split_ifs at h with hc
        obtain rfl := Option.some.inj h
        exact .loopCut hp hc.2
    · cases h
  · split at h
    · next hp =>
        split_ifs at h with hc
        obtain rfl := Option.some.inj h
        exact .stopped hp hc
    · next hp =>
        split_ifs at h with hc
        obtain rfl := Option.some.inj h
        exact .drained hp hc
    · cases h
  · split_ifs at h with hc
    obtain rfl := Option.some.inj h
    exact .forceAnswered hc.1 hc.2
  · split at h
    · next hp =>
        obtain rfl := Option.some.inj h
        exact .networkAnswered hp
    · cases h
  · split at h
    · next hp =>
        split_ifs at h with hc
        obtain rfl := Option.some.inj h
        exact .escalated hp hc
    · cases h
  · split at h
    · next hp =>
        split at h
        · next hb =>
            split_ifs at h with hc
            obtain rfl := Option.some.inj h
            exact .forcedAbandoned hp hb hc.2
        · cases h
    · next hp =>
        split_ifs at h with hc
        obtain rfl := Option.some.inj h
        exact .networkAbandoned hp hc
    · cases h

/-! ### Where each container is -/

/-- Every container to remove is in one place. -/
structure Parts (e : RunEnd) (c : Cleanup) : Prop where
  names : c.names.Nodup
  ids : (c.created.map Removal.id).Nodup
  toRemove : c.toRemove =
    if c.phase = .creates ∨ e.shouldCleanup = false then [] else removalOrder e.root c.created
  perm : (c.queued ++ c.inFlight ++ c.forced ++ c.reported).Perm c.toRemove
  early : c.phase.stage ≤ 2 → c.forced = []
  later : 3 ≤ c.phase.stage → c.queued = [] ∧ c.inFlight = []
  last : 4 ≤ c.phase.stage → c.forced = [] ∨ c.abandoned = true

namespace Parts

/-- No two containers of the parts share an id or a name. -/
theorem nodup (h : Parts e c) {β : Type} {f : Removal → β} (hf : (c.created.map f).Nodup) :
    ((c.queued ++ c.inFlight ++ c.forced ++ c.reported).map f).Nodup := by
  rw [(h.perm.map f).nodup_iff, h.toRemove]
  split_ifs
  · exact List.nodup_nil
  · exact (((removalOrder_perm e.root c.created).map f).nodup_iff).mpr hf

theorem eq_nil_of_creates (h : Parts e c) (hp : c.phase = .creates) :
    c.queued = [] ∧ c.inFlight = [] ∧ c.forced = [] ∧ c.reported = [] := by
  have hnil := h.perm
  rw [h.toRemove, if_pos (.inl hp), List.perm_nil] at hnil
  simpa [and_assoc] using hnil

end Parts

theorem perm_cons_filter_ne {l : List Removal} (h : (l.map Removal.id).Nodup) {r : Removal}
    (hr : r ∈ l) : (r :: l.filter fun other => other.id ≠ r.id).Perm l := by
  have hnodup : l.Nodup := h.of_map _
  have hfilter : (l.filter fun other => other.id ≠ r.id) = l.erase r := by
    rw [hnodup.erase_eq_filter]
    apply List.filter_congr
    intro other hother
    have hinj : other.id = r.id ↔ other = r :=
      ⟨fun heq => List.inj_on_of_nodup_map h hother hr heq, fun heq => by rw [heq]⟩
    rw [Bool.eq_iff_iff]
    simp [hinj]
  rw [hfilter]
  exact (List.perm_cons_erase hr).symm

/-- One container of a part is reported. -/
theorem perm_reported {l reported : List Removal} (h : (l.map Removal.id).Nodup) {r : Removal}
    (hr : r ∈ l) :
    ((l.filter fun other => other.id ≠ r.id) ++ (reported ++ [r])).Perm (l ++ reported) := by
  rw [← List.append_assoc]
  refine (List.perm_append_singleton r _).trans ?_
  exact (perm_cons_filter_ne h hr).append_right reported

/-- A later phase, with the containers where they are. -/
theorem Parts.move (h : Parts e c) (phase : CleanupPhase) (hp : c.phase ≠ .creates)
    (hp' : phase ≠ .creates) (hearly : phase.stage ≤ 2 → c.forced = [])
    (hlater : 3 ≤ phase.stage → c.queued = [] ∧ c.inFlight = [])
    (hlast : 4 ≤ phase.stage → c.forced = [] ∨ c.abandoned = true) :
    Parts e { c with phase := phase } := by
  refine { h with toRemove := ?_, early := hearly, later := hlater, last := hlast }
  have hto := h.toRemove
  simp only [hp, false_or] at hto
  simp only [hp', false_or]
  exact hto

theorem Parts.toNetwork (h : Parts e c) (hp : c.phase ≠ .creates)
    (hloop : c.queued = [] ∧ c.inFlight = []) (hforced : c.forced = [] ∨ c.abandoned = true) :
    Parts e (toNetwork e c) := by
  unfold Cleanup.toNetwork
  split_ifs
  · have hmove := h.move (.network c.interruptsAtEscalation) hp (by simp)
      (by simp [CleanupPhase.stage]) (fun _ => hloop) fun _ => hforced
    exact { hmove with }
  · exact h.move _ hp (by simp) (by simp [CleanupPhase.stage]) (fun _ => hloop) fun _ => hforced

theorem Parts.beginRemovals (h : Parts e c) (hp : c.phase = .creates) :
    Parts e (beginRemovals e c) := by
  obtain ⟨hq, hi, hf, hr⟩ := h.eq_nil_of_creates hp
  unfold Cleanup.beginRemovals
  dsimp only
  split_ifs with hclean
  · refine ⟨h.names, h.ids, ?_, ?_, fun _ => hf, ?_, ?_⟩
    · simp [hclean]
    · simp [hi, hf, hr]
    · simp [CleanupPhase.stage]
    · simp [CleanupPhase.stage]
  · refine ⟨h.names, h.ids, ?_, h.perm, fun _ => hf, fun _ => ⟨hq, hi⟩, fun _ => .inl hf⟩
    have hto := h.toRemove
    rw [if_pos (.inl hp)] at hto
    simp [hclean, hto]

theorem Parts.batch (h : Parts e c) (hp : c.phase = .batch) : Parts e (batch e c) := by
  have hforced : c.forced = [] := h.early (by simp [hp, CleanupPhase.stage])
  unfold Cleanup.batch
  split_ifs
  · exact h.move _ (by simp [hp]) (by simp) (fun _ => hforced) (by simp [CleanupPhase.stage])
      (by simp [CleanupPhase.stage])
  · have hmove := h.move .stops (by simp [hp]) (by simp) (fun _ => hforced)
      (by simp [CleanupPhase.stage]) (by simp [CleanupPhase.stage])
    refine { hmove with
      perm := List.Perm.trans ?_ h.perm
      later := by simp [CleanupPhase.stage] }
    -- the ready part of the queue goes behind what is in flight
    have hsplit := List.filter_append_perm c.isReady c.queued
    have hready : ((c.queued.filter fun r => !c.isReady r) ++ c.queued.filter c.isReady).Perm
        c.queued :=
      List.perm_append_comm.trans hsplit
    have hmoved : ((c.queued.filter fun r => !c.isReady r) ++
        (c.inFlight ++ c.queued.filter c.isReady)).Perm (c.queued ++ c.inFlight) := by
      refine (List.perm_append_comm.append_left _).trans ?_
      rw [← List.append_assoc]
      exact hready.append_right _
    exact (hmoved.append_right _).append_right _

theorem Parts.stopped (h : Parts e c) {r : Removal} (refusal : Option String)
    (hp : c.phase.stage ≤ 2) (hr : r ∈ c.inFlight) : Parts e (c.stopped r refusal) := by
  have hforced := h.early hp
  have hids : (c.inFlight.map Removal.id).Nodup := by
    have hnodup := h.nodup h.ids
    simp only [List.map_append] at hnodup
    exact hnodup.of_append_left.of_append_left.of_append_right
  refine ⟨h.names, h.ids, h.toRemove, List.Perm.trans ?_ h.perm, h.early, fun hlate => ?_, h.last⟩
  · simp only [Cleanup.stopped, report, hforced, List.append_nil, List.append_assoc]
    exact (perm_reported hids hr).append_left _
  · have hlate' : 3 ≤ c.phase.stage := hlate
    omega

theorem Parts.force (h : Parts e c) (hp : c.phase = .draining) : Parts e (force e c) := by
  have hforced : c.forced = [] := h.early (by simp [hp, CleanupPhase.stage])
  unfold Cleanup.force
  dsimp only
  split_ifs with hnil
  · have hnil' : c.inFlight = [] ∧ c.queued = [] := by simpa using hnil
    exact h.toNetwork (by simp [hp]) ⟨hnil'.2, hnil'.1⟩ (.inl hforced)
  · refine ⟨h.names, h.ids, ?_, List.Perm.trans ?_ h.perm, ?_, fun _ => ⟨rfl, rfl⟩, ?_⟩
    · have hto := h.toRemove
      simp only [hp, reduceCtorEq, false_or] at hto ⊢
      exact hto
    · simp only [List.nil_append, hforced, List.append_nil]
      exact List.perm_append_comm.append_right _
    · simp [CleanupPhase.stage]
    · simp [CleanupPhase.stage]

theorem Parts.removedByForce (h : Parts e c) {r : Removal} (refusal : Option String)
    (hp : c.phase = .forced) (hr : r ∈ c.forced) : Parts e (c.removedByForce r refusal) := by
  obtain ⟨hq, hi⟩ := h.later (by simp [hp, CleanupPhase.stage])
  have hids : (c.forced.map Removal.id).Nodup := by
    have hnodup := h.nodup h.ids
    simp only [List.map_append] at hnodup
    exact hnodup.of_append_left.of_append_right
  have hphase : (c.removedByForce r refusal).phase = .forced := hp
  refine ⟨h.names, h.ids, h.toRemove, List.Perm.trans ?_ h.perm, ?_, h.later, ?_⟩
  · simp only [Cleanup.removedByForce, report, hq, hi, List.nil_append]
    exact perm_reported hids hr
  · simp [hphase, CleanupPhase.stage]
  · simp [hphase, CleanupPhase.stage]

theorem step_parts (h : Parts e c) (hstep : step e c event = some c') : Parts e c' := by
  cases step_cases hstep with
  | signal _ => exact { h with }
  | count _ => exact { h with }
  | makes _ _ _ => exact { h with }
  | makesNetwork _ => exact { h with }
  | refused _ _ _ => exact { h with }
  | prepared _ _ => exact { h with }
  | @registered name id answer pending hp _ hname hid _ _ =>
      refine { h with names := ?_, ids := ?_, toRemove := ?_ }
      · have hnodup := h.names.concat hname
        simpa [names] using hnodup
      · have hnodup := h.ids.concat hid
        simpa using hnodup
      · have hnil := h.toRemove
        rw [if_pos (.inl hp)] at hnil ⊢
        exact hnil
  | begun hp _ => exact h.beginRemovals hp
  | begunEarly hp _ _ => exact h.beginRemovals hp
  | batch hp => exact h.batch hp
  | loopEnded hp _ =>
      exact h.move _ (by simp [hp]) (by simp) (fun _ => h.early (by simp [hp, CleanupPhase.stage]))
        (by simp [CleanupPhase.stage]) (by simp [CleanupPhase.stage])
  | loopCut hp _ =>
      exact h.move _ (by simp [hp]) (by simp) (fun _ => h.early (by simp [hp, CleanupPhase.stage]))
        (by simp [CleanupPhase.stage]) (by simp [CleanupPhase.stage])
  | @stopped r refusal hp hr =>
      have hstopped := h.stopped refusal (by simp [hp, CleanupPhase.stage]) hr
      have hmove := hstopped.move .batch (by simp [Cleanup.stopped, report, hp]) (by simp)
        (fun _ => h.early (by simp [hp, CleanupPhase.stage])) (by simp [CleanupPhase.stage])
        (by simp [CleanupPhase.stage])
      exact { hmove with }
  | drained hp hr => exact h.stopped _ (by simp [hp, CleanupPhase.stage]) hr
  | force hp => exact h.force hp
  | forceAnswered hp hr => exact h.removedByForce _ hp hr
  | forcedDone hp hnil =>
      exact h.toNetwork (by simp [hp]) (h.later (by simp [hp, CleanupPhase.stage])) (.inl hnil)
  | forcedAbandoned hp _ _ =>
      have hparts : Parts e { c with
          abandoned := true
          log := c.log ++ [.abandoned] } := { h with last := fun _ => .inr rfl }
      exact hparts.toNetwork (by simp [hp]) (h.later (by simp [hp, CleanupPhase.stage])) (.inr rfl)
  | networkAnswered hp =>
      have hmove := h.move .finishing (by simp [hp]) (by simp) (by simp [CleanupPhase.stage])
        (fun _ => h.later (by simp [hp, CleanupPhase.stage]))
        fun _ => h.last (by simp [hp, CleanupPhase.stage])
      exact { hmove with }
  | escalated hp _ =>
      have hmove := h.move (.network (some c.interrupt.interrupts)) (by simp [hp]) (by simp)
        (by simp [CleanupPhase.stage]) (fun _ => h.later (by simp [hp, CleanupPhase.stage]))
        fun _ => h.last (by simp [hp, CleanupPhase.stage])
      exact { hmove with }
  | networkAbandoned hp _ =>
      have hmove := h.move .finishing (by simp [hp]) (by simp) (by simp [CleanupPhase.stage])
        (fun _ => h.later (by simp [hp, CleanupPhase.stage]))
        fun _ => h.last (by simp [hp, CleanupPhase.stage])
      exact { hmove with last := fun _ => .inr rfl }
  | finish hp =>
      have hmove := h.move .finished (by simp [hp]) (by simp) (by simp [CleanupPhase.stage])
        (fun _ => h.later (by simp [hp, CleanupPhase.stage]))
        fun _ => h.last (by simp [hp, CleanupPhase.stage])
      exact { hmove with }

theorem runs_parts (h : Runs e c) : Parts e c := by
  refine h.invariant ?_ fun _ _ _ _ hparts hstep => step_parts hparts hstep
  exact ⟨e.names, e.ids, by simp [start], List.Perm.refl _, fun _ => rfl, fun _ => ⟨rfl, rfl⟩,
    fun _ => .inl rfl⟩

end Cleanup

end Ratect
