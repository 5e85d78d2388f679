import Ratect.CleanupOrder

/-! # The ladder of the signals

The two counters of the signals, as the log has them: `RungOk` says what comes before each rung of
the ladder, and `Ladder` that the code's two samples of the counters, the count when the run ended
and the `SIGINT`s when the escalation was seen, are what the log says. -/

namespace Ratect

open Transition (Logged)

/-- The count has been raised. -/
def Entry.isCounted : Entry → Bool
  | counted _ => true
  | _ => false

/-- The entries that a signal has to come before. -/
def Entry.isRung : Entry → Bool
  | escalated => true
  | abandoned => true
  | forceRequested _ => true
  | _ => false

/-- What comes before each rung: a signal before the escalation, the escalation before the forced
removals, and a `SIGINT` between the escalation and its abandonment. -/
def RungOk (before : List Entry) : Entry → Prop
  | .escalated => ∃ s, .counted s ∈ before
  | .forceRequested _ => .escalated ∈ before
  | .abandoned => ∃ l₁ l₂, before = l₁ ++ .escalated :: l₂ ∧ .signalled .interrupt ∈ l₂
  | _ => True

theorem RungOk.mono {before : List Entry} {x : Entry} (h : RungOk before x) (new : List Entry) :
    RungOk (before ++ new) x := by
  cases x with
  | escalated =>
      obtain ⟨s, hs⟩ := h
      exact ⟨s, List.mem_append_left _ hs⟩
  | forceRequested name => exact List.mem_append_left _ h
  | abandoned =>
      obtain ⟨l₁, l₂, rfl, hs⟩ := h
      exact ⟨l₁, l₂ ++ new, by simp, List.mem_append_left _ hs⟩
  | _ => trivial

theorem RungOk.of_not_isRung {before : List Entry} {x : Entry} (h : x.isRung = false) :
    RungOk before x := by
  cases x with
  | escalated => cases h
  | forceRequested name => cases h
  | abandoned => cases h
  | _ => trivial

namespace Cleanup

variable {e : RunEnd} {c c' : Cleanup} {event : CleanupEvent}

/-- The two counters, as the log has them. -/
structure Ladder (e : RunEnd) (c : Cleanup) : Prop where
  count : c.interrupt.count = e.interrupt.count + c.log.countP Entry.isCounted
  rungs : Logged RungOk c.log
  baseline : ∀ b, c.interruptsAtEscalation = some b ∨ c.phase = .network (some b) →
    ∃ l₁ l₂, c.log = l₁ ++ .escalated :: l₂ ∧
      c.interrupt.interrupts = b + l₂.count (.signalled .interrupt)
  abandoned : c.abandoned = true ↔ .abandoned ∈ c.log

/-- A signal at the escalation count has been counted in the log. -/
theorem Ladder.exists_counted (h : Ladder e c) (hcount : e.escalateAt ≤ c.interrupt.count) :
    ∃ s, .counted s ∈ c.log := by
  have hpos : 0 < c.log.countP Entry.isCounted := by
    have heq := h.count
    unfold RunEnd.escalateAt at hcount
    omega
  obtain ⟨x, hx, hc⟩ := List.countP_pos_iff.mp hpos
  cases x with
  | counted s => exact ⟨s, hx⟩
  | _ => cases hc

/-- A step without a rung. -/
theorem Ladder.grow (h : Ladder e c) (new : List Entry) (hlog : c'.log = c.log ++ new)
    (hnew : ∀ x ∈ new, x.isRung = false)
    (hcount : c'.interrupt.count = c.interrupt.count + new.countP Entry.isCounted)
    (hinterrupts : c'.interrupt.interrupts =
      c.interrupt.interrupts + new.count (.signalled .interrupt))
    (hbase : ∀ b, c'.interruptsAtEscalation = some b ∨ c'.phase = .network (some b) →
      c.interruptsAtEscalation = some b ∨ c.phase = .network (some b))
    (habandoned : c'.abandoned = c.abandoned) : Ladder e c' := by
  refine ⟨?_, ?_, fun b hb => ?_, ?_⟩
  · rw [hcount, h.count, hlog, List.countP_append, Nat.add_assoc]
  · rw [hlog]
    exact h.rungs.append (fun before x more hx => hx.mono more)
      fun x hx => .of_not_isRung (hnew x hx)
  · obtain ⟨l₁, l₂, heq, hints⟩ := h.baseline b (hbase b hb)
    refine ⟨l₁, l₂ ++ new, by rw [hlog, heq]; simp, ?_⟩
    rw [hinterrupts, hints, List.count_append, Nat.add_assoc]
  · rw [habandoned, h.abandoned, hlog, List.mem_append]
    refine ⟨.inl, ?_⟩
    rintro (hmem | hmem)
    · exact hmem
    · have hrung := hnew _ hmem
      cases hrung

/-- The cleanup is abandoned, a `SIGINT` after the escalation. -/
theorem Ladder.abandon (h : Ladder e c) {b : ℕ}
    (hb : c.interruptsAtEscalation = some b ∨ c.phase = .network (some b))
    (hlt : b + 1 ≤ c.interrupt.interrupts) : Ladder e { c with
      abandoned := true
      log := c.log ++ [.abandoned] } := by
  obtain ⟨l₁, l₂, heq, hints⟩ := h.baseline b hb
  refine ⟨?_, h.rungs.concat ⟨l₁, l₂, heq, ?_⟩, fun b hb => ?_, by simp⟩
  · simpa [List.countP_append, Entry.isCounted] using h.count
  · rw [← List.count_pos_iff]
    omega
  · obtain ⟨l₁, l₂, heq, hints⟩ := h.baseline b hb
    exact ⟨l₁, l₂ ++ [.abandoned], by simp [heq], by simpa [List.count_append] using hints⟩

theorem Ladder.toNetwork (h : Ladder e c) : Ladder e (toNetwork e c) := by
  unfold Cleanup.toNetwork
  split_ifs
  · refine h.grow _ rfl (by simp [Entry.isRung]) (by simp [Entry.isCounted]) (by simp) ?_ rfl
    rintro b (hb | hb)
    · exact .inl hb
    · exact .inl (CleanupPhase.network.inj hb)
  · refine h.grow [] (by simp) (by simp) (by simp) (by simp) ?_ rfl
    rintro b (hb | hb)
    · exact .inl hb
    · cases hb

theorem Ladder.force (h : Ladder e c)
    (hcount : c.inFlight ++ c.queued ≠ [] → e.escalateAt ≤ c.interrupt.count) :
    Ladder e (force e c) := by
  unfold Cleanup.force
  dsimp only
  split_ifs with hnil
  · exact h.toNetwork
  · have hescalated : Logged RungOk (c.log ++ [.escalated]) :=
      h.rungs.concat (h.exists_counted (hcount hnil))
    have hlog : c.log ++ .escalated :: .post (.forceRemoving c.interrupt.lastSignal) ::
        (c.inFlight ++ c.queued).map (fun r => Entry.forceRequested r.name) =
        c.log ++ [.escalated] ++ .post (.forceRemoving c.interrupt.lastSignal) ::
          (c.inFlight ++ c.queued).map (fun r => Entry.forceRequested r.name) := by simp
    have hno : ∀ p : Entry → Bool, (∀ name, p (.forceRequested name) = false) →
        ((c.inFlight ++ c.queued).map fun r => Entry.forceRequested r.name).countP p = 0 := by
      intro p hp
      rw [List.countP_eq_zero]
      intro x hx
      obtain ⟨r, _, rfl⟩ := List.mem_map.mp hx
      simp [hp]
    refine ⟨?_, ?_, fun b hb => ?_, ?_⟩
    · dsimp only
      rw [List.countP_append, List.countP_cons, List.countP_cons, hno _ (fun _ => rfl)]
      simpa [Entry.isCounted] using h.count
    · dsimp only
      rw [hlog]
      refine hescalated.append (fun before x more hx => hx.mono more) fun x hx => ?_
      rcases List.mem_cons.mp hx with rfl | hx
      · trivial
      · obtain ⟨r, _, rfl⟩ := List.mem_map.mp hx
        exact List.mem_append_right _ List.mem_cons_self
    · refine ⟨c.log, _, rfl, ?_⟩
      rcases hb with hb | hb
      · rw [← Option.some.inj hb, List.count_cons, List.count, hno _ (fun _ => rfl)]
        simp
      · cases hb
    · simpa using h.abandoned

theorem step_ladder (hstops : Stops e c) (h : Ladder e c)
    (hstep : step e c event = some c') : Ladder e c' := by
  -- most steps keep the counters, the baseline and the log's rungs
  have hkeep : ∀ {c' : Cleanup} (new : List Entry), c'.log = c.log ++ new →
      (∀ x ∈ new, x.isRung = false ∧ x.isCounted = false ∧ x ≠ .signalled .interrupt) →
      c'.interrupt = c.interrupt → c'.interruptsAtEscalation = c.interruptsAtEscalation →
      (∀ b, c'.phase = .network (some b) → c.phase = .network (some b)) →
      c'.abandoned = c.abandoned → Ladder e c' := by
    intro c' new hlog hnew hinterrupt hescalation hphase habandoned
    have hcounted : new.countP Entry.isCounted = 0 := by
      rw [List.countP_eq_zero]
      exact fun x hx => by simp [(hnew x hx).2.1]
    have hsignalled : new.count (.signalled .interrupt) = 0 := by
      apply List.count_eq_zero_of_not_mem
      exact fun hmem => (hnew _ hmem).2.2 rfl
    refine h.grow new hlog (fun x hx => (hnew x hx).1) (by rw [hinterrupt, hcounted, Nat.add_zero])
      (by rw [hinterrupt, hsignalled, Nat.add_zero]) ?_ habandoned
    rintro b (hb | hb)
    · exact .inl (hescalation.symm.trans hb)
    · exact .inr (hphase b hb)
  have hposts : ∀ {c' : Cleanup} (new : List Entry), c'.log = c.log ++ new →
      (∀ x ∈ new, ∃ p, x = Entry.post p) → c'.interrupt = c.interrupt →
      c'.interruptsAtEscalation = c.interruptsAtEscalation →
      (∀ b, c'.phase ≠ .network (some b)) → c'.abandoned = c.abandoned → Ladder e c' := by
    intro c' new hlog hnew hinterrupt hescalation hphase habandoned
    refine hkeep new hlog (fun x hx => ?_) hinterrupt hescalation
      (fun b hb => absurd hb (hphase b)) habandoned
    obtain ⟨p, rfl⟩ := hnew x hx
    exact ⟨rfl, rfl, by simp⟩
  have hbegin : Ladder e (beginRemovals e c) := by
    unfold Cleanup.beginRemovals
    dsimp only
    split_ifs
    · exact hposts _ rfl (warnings_posts c) rfl rfl (by simp) rfl
    · refine hposts _ (List.append_assoc _ _ _) (fun x hx => ?_) rfl rfl (by simp) rfl
      rcases List.mem_append.mp hx with hx | hx
      · exact warnings_posts c x hx
      · exact keptNotices_posts e c x hx
  cases step_cases hstep with
  | @signal s _ =>
      refine h.grow [.signalled s] rfl (by simp [Entry.isRung])
        (by simp [Entry.isCounted, Interrupt.noteSignal]) ?_ (fun b hb => hb) rfl
      cases s with
      | interrupt => simp [Interrupt.noteSignal]
      | terminate => simp [Interrupt.noteSignal]
      | hangup => simp [Interrupt.noteSignal]
  | @count s _ =>
      refine h.grow [.counted s] rfl (by simp [Entry.isRung])
        (by simp [Entry.isCounted, Interrupt.raiseCount]) (by simp [Interrupt.raiseCount])
        (fun b hb => hb) rfl
  | makes _ _ _ => exact { h with }
  | makesNetwork _ => exact { h with }
  | refused _ _ _ => exact { h with }
  | prepared _ _ => exact { h with }
  | registered _ _ _ _ _ _ => exact { h with }
  | begun _ _ => exact hbegin
  | begunEarly _ _ _ => exact hbegin
  | batch hp =>
      unfold Cleanup.batch
      split_ifs
      · exact hkeep [] (by simp) (by simp) rfl rfl (by simp) rfl
      · refine hkeep _ rfl (fun x hx => ?_) rfl rfl (by simp) rfl
        obtain ⟨r, _, rfl⟩ := List.mem_map.mp hx
        exact ⟨rfl, rfl, by simp⟩
  | loopEnded hp _ => exact hkeep [] (by simp) (by simp) rfl rfl (by simp) rfl
  | loopCut hp _ => exact hkeep [] (by simp) (by simp) rfl rfl (by simp) rfl
  | @stopped r refusal hp _ =>
      exact hkeep [.stopReported r.name] rfl (by simp [Entry.isRung, Entry.isCounted]) rfl rfl
        (by simp) rfl
  | @drained r refusal hp _ =>
      exact hkeep [.stopReported r.name] rfl (by simp [Entry.isRung, Entry.isCounted]) rfl rfl
        (fun b hb => hb) rfl
  | force hp =>
      refine h.force fun hne => ?_
      by_contra hlt
      obtain ⟨hq, hi, _⟩ := hstops.calm (by simp [hp, CleanupPhase.stage]) (by omega)
      exact hne (by simp [hq, hi])
  | @forceAnswered r refusal hp _ =>
      exact hkeep [.forceReported r.name] rfl (by simp [Entry.isRung, Entry.isCounted]) rfl rfl
        (fun b hb => hb) rfl
  | forcedDone hp _ => exact h.toNetwork
  | forcedAbandoned hp hb hlt => exact (h.abandon (.inl hb) hlt).toNetwork
  | networkAnswered hp => exact hkeep [] (by simp) (by simp) rfl rfl (by simp) rfl
  | escalated hp hcount =>
      refine ⟨?_, h.rungs.concat (h.exists_counted hcount), fun b hb => ?_, by
        simpa using h.abandoned⟩
      · simpa [List.countP_append, Entry.isCounted] using h.count
      · rcases hb with hb | hb
        · obtain ⟨l₁, l₂, heq, hints⟩ := h.baseline b (.inl hb)
          exact ⟨l₁, l₂ ++ [.escalated], by simp [heq], by simpa [List.count_append] using hints⟩
        · refine ⟨c.log, [], rfl, ?_⟩
          rw [← Option.some.inj (CleanupPhase.network.inj hb)]
          rfl
  | networkAbandoned hp hlt =>
      have habandoned := h.abandon (.inr hp) hlt
      refine habandoned.grow [] (by simp) (by simp) (by simp) (by simp) ?_ rfl
      rintro b (hb | hb)
      · exact .inl hb
      · cases hb
  | finish _ => exact hposts _ rfl (finalPosts_posts e c) rfl rfl (by simp [Cleanup.finish]) rfl

theorem runs_ladder (h : Runs e c) : Ladder e c := by
  refine h.invariant ?_ fun _ _ _ hr hladder hstep => step_ladder (runs_stops hr) hladder hstep
  exact ⟨by simp [start], Transition.logged_nil, by simp [start], by simp [start]⟩

/-- What comes before a forced removal and before an abandonment.  The log begins when the run has
ended, so that a signal in it is one recorded since. -/
structure Climbs (e : RunEnd) (c : Cleanup) : Prop where
  forced : ∀ before name after, c.log = before ++ .forceRequested name :: after →
    (∃ s, .counted s ∈ before) ∧ e.interrupt.count < c.interrupt.count
  abandoned : c.abandoned = true → ∃ before between after,
    c.log = before ++ .escalated :: between ++ .abandoned :: after ∧
      (∃ s, .counted s ∈ before) ∧ .signalled .interrupt ∈ between
  others : .signalled .interrupt ∉ c.log → c.abandoned = false
  earlier : (∀ s, .counted s ∉ c.log) →
    c.abandoned = false ∧ (∀ name, .forceRequested name ∉ c.log) ∧ .escalated ∉ c.log

/-- The escalation comes after a signal. -/
theorem Ladder.counted_of_escalated (h : Ladder e c) (hmem : .escalated ∈ c.log) :
    ∃ s, .counted s ∈ c.log := by
  obtain ⟨before, after, heq⟩ := List.append_of_mem hmem
  obtain ⟨s, hs⟩ := h.rungs before _ after heq
  exact ⟨s, by rw [heq]; exact List.mem_append_left _ hs⟩

/-- In every cleanup, whatever the signals and whenever they are recorded. -/
theorem cleanup_climbs (h : Runs e c) : Climbs e c := by
  have hladder := runs_ladder h
  have hforced : ∀ before name after, c.log = before ++ .forceRequested name :: after →
      ∃ s, .counted s ∈ before := by
    intro before name after heq
    obtain ⟨l₁, l₂, rfl⟩ := List.append_of_mem (hladder.rungs before _ after heq)
    obtain ⟨s, hs⟩ :=
      hladder.rungs l₁ .escalated (l₂ ++ .forceRequested name :: after) (by simp [heq])
    exact ⟨s, List.mem_append_left _ hs⟩
  have habandoned : c.abandoned = true → ∃ before between after,
      c.log = before ++ .escalated :: between ++ .abandoned :: after ∧
        (∃ s, .counted s ∈ before) ∧ .signalled .interrupt ∈ between := by
    intro hab
    obtain ⟨l, after, heq⟩ := List.append_of_mem (hladder.abandoned.mp hab)
    obtain ⟨before, between, rfl, hint⟩ := hladder.rungs l _ after heq
    refine ⟨before, between, after, heq, ?_, hint⟩
    exact hladder.rungs before .escalated (between ++ .abandoned :: after) (by simp [heq])
  refine ⟨fun before name after heq => ?_, habandoned, fun hnone => ?_, fun hnone => ?_⟩
  · obtain ⟨s, hs⟩ := hforced before name after heq
    refine ⟨⟨s, hs⟩, ?_⟩
    have hpos : 0 < c.log.countP Entry.isCounted :=
      List.countP_pos_iff.mpr ⟨.counted s, by simp [heq, hs], rfl⟩
    have hcount := hladder.count
    omega
  · by_contra hab
    obtain ⟨before, between, after, heq, _, hint⟩ := habandoned (by simpa using hab)
    exact hnone (by simp [heq, hint])
  · refine ⟨?_, fun name hmem => ?_, fun hmem => ?_⟩
    · by_contra hab
      obtain ⟨before, between, after, heq, ⟨s, hs⟩, _⟩ := habandoned (by simpa using hab)
      exact hnone s (by simp [heq, hs])
    · obtain ⟨before, after, heq⟩ := List.append_of_mem hmem
      obtain ⟨s, hs⟩ := hforced before name after heq
      exact hnone s (by simp [heq, hs])
    · obtain ⟨s, hs⟩ := hladder.counted_of_escalated hmem
      exact hnone s hs

end Cleanup

/-- `SIGTERM` cuts the stop of `app` short, and `SIGINT` the forced removals. -/
def shopAbandoned : List CleanupEvent :=
  [.proceed, .proceed, .signal .terminate, .count .terminate, .cutShort, .proceed,
    .signal .interrupt, .abandon, .count .interrupt, .proceed]

theorem cleanup_climbs_shop : ∃ c, Cleanup.Runs shopEnd c ∧ Cleanup.Climbs shopEnd c ∧
    c.abandoned = true ∧ .forceRequested "db" ∈ c.log ∧ c.interrupt.count = 3 := by
  have hrun : ((Transition.run (Cleanup.step shopEnd) (Cleanup.start shopEnd) shopAbandoned).map
      fun c => decide (c.abandoned = true ∧ .forceRequested "db" ∈ c.log ∧ c.interrupt.count = 3)) =
      some true := by decide +kernel
  obtain ⟨c, hc, hdata⟩ := Transition.exists_reachable_of_run hrun
  exact ⟨c, hc, Cleanup.cleanup_climbs hc, of_decide_eq_true hdata⟩

end Ratect
