import Ratect.CleanupInvariant

/-! # The order of a cleanup

`Orderly` says of a log that every container is stopped once, after its dependents, and removed by
force once, and only if its stop was not reported.  `Stops` is the graceful loop with its log: what
a queued container waits for is what has not been reported of its dependents.  As nothing depends
on itself, a loop with nothing in flight has nothing queued (`Stops.queued_eq_nil`), so only a
signal leaves something for the forced removals. -/

namespace Ratect

open PostOrder (Edge)
open Transition (Logged)

namespace Cleanup

/-- The names of the containers to remove. -/
def targets (c : Cleanup) : List String := c.toRemove.map Removal.name

end Cleanup

/-- An entry that is no request and no report of a stop, and no forced request. -/
def Entry.neutral : Entry → Bool
  | stopRequested _ => false
  | stopReported _ => false
  | forceRequested _ => false
  | _ => true

/-- A log in which each container is stopped once, after the stops of its dependents have been
reported, and removed by force once, and only if its stop has not been reported. -/
structure Orderly (graph : Graph) (targets : List String) (log : List Entry) : Prop where
  requestedOnce : ∀ name, log.count (.stopRequested name) ≤ 1
  forcedOnce : ∀ name, log.count (.forceRequested name) ≤ 1
  apart : ∀ name, .forceRequested name ∈ log → .stopReported name ∉ log
  ordered : Logged (fun before x => ∀ name, x = .stopRequested name → ∀ d ∈ targets,
    Relation.TransGen (Edge graph.get) d name → .stopReported d ∈ before) log

namespace Orderly

variable {graph : Graph} {targets : List String} {log new : List Entry}

theorem mem_append_neutral {x : Entry} (hx : x.neutral = false)
    (hnew : ∀ y ∈ new, y.neutral = true) : x ∈ log ++ new ↔ x ∈ log := by
  refine ⟨fun h => ?_, List.mem_append_left _⟩
  rcases List.mem_append.mp h with h | h
  · exact h
  · rw [hnew x h] at hx
    cases hx

theorem count_append_neutral {x : Entry} (hx : x.neutral = false)
    (hnew : ∀ y ∈ new, y.neutral = true) : (log ++ new).count x = log.count x := by
  have hzero : new.count x = 0 := by
    apply List.count_eq_zero_of_not_mem
    intro h
    rw [hnew x h] at hx
    cases hx
  rw [List.count_append, hzero, Nat.add_zero]

theorem ordered_append (h : Orderly graph targets log)
    (hnew : ∀ x ∈ new, ∀ name, x = .stopRequested name → ∀ d ∈ targets,
      Relation.TransGen (Edge graph.get) d name → .stopReported d ∈ log) :
    Logged (fun before x => ∀ name, x = .stopRequested name → ∀ d ∈ targets,
      Relation.TransGen (Edge graph.get) d name → .stopReported d ∈ before) (log ++ new) := by
  refine h.ordered.append (fun before x more hx name hname d hd hreach => ?_) hnew
  exact List.mem_append_left _ (hx name hname d hd hreach)

theorem append_neutral (h : Orderly graph targets log) (hnew : ∀ x ∈ new, x.neutral = true) :
    Orderly graph targets (log ++ new) := by
  refine ⟨fun name => ?_, fun name => ?_, fun name => ?_,
    h.ordered_append fun x hx name hname => ?_⟩
  · rw [count_append_neutral rfl hnew]
    exact h.requestedOnce name
  · rw [count_append_neutral rfl hnew]
    exact h.forcedOnce name
  · rw [mem_append_neutral rfl hnew, mem_append_neutral rfl hnew]
    exact h.apart name
  · have hneutral := hnew x hx
    rw [hname] at hneutral
    cases hneutral

theorem of_neutral (h : ∀ x ∈ log, x.neutral = true) : Orderly graph targets log := by
  have hnil : Orderly graph targets [] :=
    ⟨by simp, by simp, by simp, Transition.logged_nil⟩
  exact hnil.append_neutral h

/-- Of new requests, each for another container without one. -/
theorem count_append_map {f : String → Entry} (hf : Function.Injective f) {names : List String}
    (hnodup : names.Nodup) (hfresh : ∀ name ∈ names, f name ∉ log) {name : String}
    (hone : log.count (f name) ≤ 1) : (log ++ names.map f).count (f name) ≤ 1 := by
  rw [List.count_append, List.count_map_of_injective _ _ hf]
  by_cases hmem : name ∈ names
  · rw [List.count_eq_zero_of_not_mem (hfresh name hmem), Nat.zero_add]
    exact List.nodup_iff_count_le_one.mp hnodup name
  · rw [List.count_eq_zero_of_not_mem hmem, Nat.add_zero]
    exact hone

/-- Containers whose dependents have all been reported are stopped. -/
theorem request (h : Orderly graph targets log) {names : List String} (hnodup : names.Nodup)
    (hfresh : ∀ name ∈ names, .stopRequested name ∉ log)
    (hready : ∀ name ∈ names, ∀ d ∈ targets, Relation.TransGen (Edge graph.get) d name →
      .stopReported d ∈ log) : Orderly graph targets (log ++ names.map .stopRequested) := by
  have hinj : Function.Injective Entry.stopRequested := fun a b hab => Entry.stopRequested.inj hab
  refine ⟨fun name => count_append_map hinj hnodup hfresh (h.requestedOnce name), fun name => ?_,
    fun name => ?_, h.ordered_append fun x hx name hname => ?_⟩
  · have hzero : (names.map Entry.stopRequested).count (.forceRequested name) = 0 :=
      List.count_eq_zero_of_not_mem (by simp)
    rw [List.count_append, hzero]
    exact h.forcedOnce name
  · simpa using h.apart name
  · obtain ⟨other, hother, rfl⟩ := List.mem_map.mp hx
    obtain rfl := Entry.stopRequested.inj hname
    exact hready other hother

/-- A stop is reported, before any forced removal. -/
theorem report (h : Orderly graph targets log) {name : String}
    (hunforced : ∀ name, .forceRequested name ∉ log) :
    Orderly graph targets (log ++ [.stopReported name]) := by
  refine ⟨fun other => ?_, fun other => ?_, fun other => ?_,
    h.ordered_append fun x hx other hother => ?_⟩
  · simpa [List.count_append, List.count_cons] using h.requestedOnce other
  · simpa [List.count_append, List.count_cons] using h.forcedOnce other
  · simp [hunforced other]
  · rw [List.mem_singleton.mp hx] at hother
    cases hother

/-- What has not been reported is removed by force. -/
theorem force (h : Orderly graph targets log) {names : List String} (hnodup : names.Nodup)
    (hunforced : ∀ name, .forceRequested name ∉ log)
    (hunreported : ∀ name ∈ names, .stopReported name ∉ log) :
    Orderly graph targets (log ++ names.map .forceRequested) := by
  have hinj : Function.Injective Entry.forceRequested := fun a b hab => Entry.forceRequested.inj hab
  refine ⟨fun name => ?_, fun name => ?_, fun name hmem => ?_,
    h.ordered_append fun x hx name hname => ?_⟩
  · have hzero : (names.map Entry.forceRequested).count (.stopRequested name) = 0 :=
      List.count_eq_zero_of_not_mem (by simp)
    rw [List.count_append, hzero]
    exact h.requestedOnce name
  · exact count_append_map hinj hnodup (fun other _ => hunforced other) (h.forcedOnce name)
  · have hname : name ∈ names := by simpa [hunforced name] using hmem
    simpa using hunreported name hname
  · obtain ⟨other, _, rfl⟩ := List.mem_map.mp hx
    cases hname

end Orderly

namespace Cleanup

variable {e : RunEnd} {c c' : Cleanup} {event : CleanupEvent}

/-- The graceful loop, with its log: what a container waits for is what is not reported of its
dependents, and without a signal the loop leaves nothing. -/
structure Stops (e : RunEnd) (c : Cleanup) : Prop where
  orderly : Orderly e.graph c.targets c.log
  quiet : c.phase = .creates → ∀ x ∈ c.log, x.neutral = true
  keys : c.phase.stage = 1 → c.waiting.keys = c.targets
  waiting : c.phase.stage = 1 → ∀ name ∈ c.targets, ∀ d, d ∈ c.waiting.get name ↔
    d ∈ c.targets ∧ Relation.TransGen (Edge e.graph.get) d name ∧ .stopReported d ∉ c.log
  held : c.phase = .stops → ∀ r ∈ c.queued, c.waiting.get r.name ≠ []
  reported : c.phase.stage ≤ 2 → ∀ name, .stopReported name ∈ c.log ↔
    name ∈ c.reported.map Removal.name
  unrequested : ∀ r ∈ c.queued, .stopRequested r.name ∉ c.log
  unforced : c.phase.stage ≤ 2 → ∀ name, .forceRequested name ∉ c.log
  calm : 2 ≤ c.phase.stage → c.interrupt.count < e.escalateAt →
    c.queued = [] ∧ c.inFlight = [] ∧ (∀ name, .forceRequested name ∉ c.log) ∧
      ∀ name ∈ c.targets, .stopReported name ∈ c.log

/-- A step that makes no request of a stop and reports none, to the same phase or to a later one
out of the loop. -/
theorem Stops.neutral (h : Stops e c) (phase : CleanupPhase) (new : List Entry)
    (hnew : ∀ x ∈ new, x.neutral = true)
    (hphase : phase = c.phase ∨ 2 ≤ phase.stage ∧ c.phase ≠ .creates ∧ c.phase.stage ≤ phase.stage)
    (hcalm : 2 ≤ phase.stage → c.phase.stage < 2 → c.interrupt.count < e.escalateAt →
      c.queued = [] ∧ c.inFlight = [] ∧ ∀ name ∈ c.targets, .stopReported name ∈ c.log) :
    Stops e { c with
      phase := phase
      log := c.log ++ new } := by
  have hmem : ∀ x : Entry, x.neutral = false → (x ∈ c.log ++ new ↔ x ∈ c.log) :=
    fun x hx => Orderly.mem_append_neutral hx hnew
  have hone : phase.stage = 1 → phase = c.phase := by
    intro hs
    rcases hphase with rfl | ⟨h2, _⟩
    · rfl
    · omega
  have hle : c.phase.stage ≤ phase.stage := by
    rcases hphase with rfl | ⟨_, _, hle⟩
    · exact le_rfl
    · exact hle
  refine ⟨h.orderly.append_neutral hnew, fun hp x hx => ?_, fun hs => ?_, fun hs name hname d => ?_,
    fun hp => ?_, fun hs name => ?_, fun r hr => ?_, fun hs name => ?_, fun hs hcount => ?_⟩
  · have hp' : phase = .creates := hp
    have hsame : c.phase = .creates := by
      rcases hphase with rfl | ⟨h2, _⟩
      · exact hp'
      · rw [hp'] at h2
        simp [CleanupPhase.stage] at h2
    rcases List.mem_append.mp hx with hx | hx
    · exact h.quiet hsame x hx
    · exact hnew x hx
  · exact h.keys (by rw [← hone hs]; exact hs)
  · dsimp only
    rw [hmem _ rfl]
    exact h.waiting (by rw [← hone hs]; exact hs) name hname d
  · have hp' : phase = .stops := hp
    exact h.held (by rw [← hone (by rw [hp']; rfl), hp'])
  · dsimp only at hs ⊢
    rw [hmem _ rfl]
    exact h.reported (hle.trans hs) name
  · dsimp only
    rw [hmem _ rfl]
    exact h.unrequested r hr
  · dsimp only at hs ⊢
    rw [hmem _ rfl]
    exact h.unforced (hle.trans hs) name
  · dsimp only at hs hcount ⊢
    simp only [hmem _ (show (Entry.forceRequested _).neutral = false from rfl),
      hmem _ (show (Entry.stopReported _).neutral = false from rfl)]
    by_cases h2 : 2 ≤ c.phase.stage
    · exact h.calm h2 hcount
    · obtain ⟨hq, hi, hall⟩ := hcalm hs (by omega) hcount
      exact ⟨hq, hi, h.unforced (by omega), hall⟩

theorem warnings_posts (c : Cleanup) : ∀ x ∈ c.warnings, ∃ p, x = .post p := by
  intro x hx
  unfold warnings at hx
  split_ifs at hx
  · cases hx
  · exact ⟨_, List.mem_singleton.mp hx⟩

theorem keptNotices_posts (e : RunEnd) (c : Cleanup) : ∀ x ∈ keptNotices e c, ∃ p, x = .post p := by
  intro x hx
  unfold keptNotices at hx
  dsimp only at hx
  generalize (if e.ownsNetwork then e.networkName else none) = network at hx
  split_ifs at hx
  · cases hx
  · exact ⟨_, List.mem_singleton.mp hx⟩

theorem finalPosts_posts (e : RunEnd) (c : Cleanup) : ∀ x ∈ finalPosts e c, ∃ p, x = .post p := by
  intro x hx
  unfold finalPosts at hx
  split_ifs at hx
  · exact ⟨_, List.mem_singleton.mp hx⟩
  · exact ⟨_, List.mem_singleton.mp hx⟩
  · cases hx

theorem neutral_of_posts {new : List Entry} (h : ∀ x ∈ new, ∃ p, x = Entry.post p) :
    ∀ x ∈ new, x.neutral = true := by
  intro x hx
  obtain ⟨p, rfl⟩ := h x hx
  rfl

theorem Stops.beginRemovals (h : Stops e c) (hparts : Parts e c) (hp : c.phase = .creates) :
    Stops e (beginRemovals e c) := by
  obtain ⟨hq, hi, _, hr⟩ := hparts.eq_nil_of_creates hp
  have hto : c.toRemove = [] := by
    rw [hparts.toRemove, if_pos (.inl hp)]
  have hlog : ∀ x ∈ c.log ++ c.warnings, x.neutral = true := by
    intro x hx
    rcases List.mem_append.mp hx with hx | hx
    · exact h.quiet hp x hx
    · exact neutral_of_posts (warnings_posts c) x hx
  have hnot : ∀ (log : List Entry) (x : Entry), (∀ y ∈ log, y.neutral = true) → x.neutral = false →
      x ∉ log := by
    intro log x hall hx hmem
    rw [hall x hmem] at hx
    cases hx
  unfold Cleanup.beginRemovals
  dsimp only
  split_ifs with hclean
  · refine ⟨.of_neutral hlog, by simp, fun _ => keys_dependentsToStopFirst _ _,
      fun _ name hname d => ?_, by simp, fun _ name => ?_, fun r _ => hnot _ _ hlog rfl,
      fun _ name => hnot _ _ hlog rfl, by simp [CleanupPhase.stage]⟩
    · have hnone : Entry.stopReported d ∉ c.log ++ c.warnings := hnot _ _ hlog rfl
      simp only [targets] at hname ⊢
      rw [mem_dependentsToStopFirst e.graph hname]
      exact ⟨fun hd => ⟨hd.1, hd.2, hnone⟩, fun hd => ⟨hd.1, hd.2.1⟩⟩
    · simp only [hr, List.map_nil, List.not_mem_nil, iff_false]
      exact hnot _ _ hlog rfl
  · have hlog' : ∀ x ∈ c.log ++ c.warnings ++ keptNotices e c, x.neutral = true := by
      intro x hx
      rcases List.mem_append.mp hx with hx | hx
      · exact hlog x hx
      · exact neutral_of_posts (keptNotices_posts e c) x hx
    refine ⟨.of_neutral hlog', by simp, by simp [CleanupPhase.stage], by simp [CleanupPhase.stage],
      by simp, by simp [CleanupPhase.stage], fun r _ => hnot _ _ hlog' rfl,
      by simp [CleanupPhase.stage],
      fun _ _ => ⟨hq, hi, fun name => hnot _ _ hlog' rfl, by simp [targets, hto]⟩⟩

/-- The names of the containers in the parts, each once. -/
theorem Parts.names_nodup (h : Parts e c) :
    (c.queued.map Removal.name ++ c.inFlight.map Removal.name ++ c.forced.map Removal.name ++
      c.reported.map Removal.name).Nodup := by
  have hnodup := h.nodup h.names
  simpa only [List.map_append] using hnodup

/-- A container to remove is in one of the parts. -/
theorem Parts.mem_targets (h : Parts e c) {name : String} (hname : name ∈ c.targets) :
    name ∈ c.queued.map Removal.name ∨ name ∈ c.inFlight.map Removal.name ∨
      name ∈ c.forced.map Removal.name ∨ name ∈ c.reported.map Removal.name := by
  have hmem := ((h.perm.map Removal.name).mem_iff).mpr hname
  simpa only [List.map_append, List.mem_append, or_assoc] using hmem

theorem Parts.queued_targets (h : Parts e c) {r : Removal} (hr : r ∈ c.queued) :
    r.name ∈ c.targets := by
  apply List.mem_map_of_mem
  rw [← h.perm.mem_iff]
  simp [hr]

theorem Stops.batch (h : Stops e c) (hparts : Parts e c) (hp : c.phase = .batch) :
    Stops e (batch e c) := by
  have hone : c.phase.stage = 1 := by simp [hp, CleanupPhase.stage]
  unfold Cleanup.batch
  split_ifs with hcount
  · have hneutral := h.neutral .draining [] (by simp) (.inr (by simp [hp, CleanupPhase.stage]))
      (fun _ _ hlt => by omega)
    simpa using hneutral
  · have hnames := hparts.names_nodup
    have hsub : ∀ r ∈ c.queued.filter c.isReady, r ∈ c.queued :=
      fun r hr => List.mem_of_mem_filter hr
    have hready : ((c.queued.filter c.isReady).map Removal.name).Nodup := by
      have hqueued := hnames.of_append_left.of_append_left.of_append_left
      exact hqueued.sublist (List.filter_sublist.map _)
    have hlog : ((c.queued.filter c.isReady).map fun r => Entry.stopRequested r.name) =
        ((c.queued.filter c.isReady).map Removal.name).map Entry.stopRequested := by
      rw [List.map_map]
      rfl
    have horderly :=
      h.orderly.request hready (fun name hname => ?_) (fun name hname d hd hreach => ?_)
    rotate_left
    · obtain ⟨r, hr, rfl⟩ := List.mem_map.mp hname
      exact h.unrequested r (hsub r hr)
    · obtain ⟨r, hr, rfl⟩ := List.mem_map.mp hname
      have hnil : c.waiting.get r.name = [] := by
        simpa [isReady] using (List.mem_filter.mp hr).2
      have hiff := h.waiting hone r.name (hparts.queued_targets (hsub r hr)) d
      rw [hnil] at hiff
      by_contra hnot
      exact List.not_mem_nil (hiff.mpr ⟨hd, hreach, hnot⟩)
    rw [hlog]
    refine ⟨horderly, by simp, fun _ => h.keys hone, fun _ name hname d => ?_, fun _ r hr => ?_,
      fun _ name => ?_, fun r hr => ?_, fun _ name => ?_, by simp [CleanupPhase.stage]⟩
    · have hiff := h.waiting hone name hname d
      simpa [targets] using hiff
    · simpa [isReady] using (List.mem_filter.mp hr).2
    · have hiff := h.reported (by omega) name
      simpa using hiff
    · obtain ⟨hmem, hnot⟩ := List.mem_filter.mp hr
      have hold := h.unrequested r hmem
      have hqueued := hnames.of_append_left.of_append_left.of_append_left
      intro hin
      rcases List.mem_append.mp hin with hin | hin
      · exact hold hin
      · obtain ⟨name, hname, heq⟩ := List.mem_map.mp hin
        obtain ⟨other, hother, rfl⟩ := List.mem_map.mp hname
        have hsame : other = r :=
          List.inj_on_of_nodup_map hqueued (hsub other hother) hmem (Entry.stopRequested.inj heq)
        rw [hsame] at hother
        simp [(List.mem_filter.mp hother).2] at hnot
    · simpa using h.unforced (by omega) name

/-- A stop is reported in the loop. -/
theorem Stops.stopped (h : Stops e c) {r : Removal} (refusal : Option String)
    (hp : c.phase = .stops) :
    Stops e { c.stopped r refusal with
      phase := .batch
      waiting := c.waiting.map fun entry => (entry.1, entry.2.filter fun d => d ≠ r.name) } := by
  have hone : c.phase.stage = 1 := by simp [hp, CleanupPhase.stage]
  refine ⟨h.orderly.report (h.unforced (by omega)), by simp, fun _ => ?_, fun _ name hname d => ?_,
    by simp, fun _ name => ?_, fun other hother => ?_, fun _ name => ?_,
    by simp [CleanupPhase.stage]⟩
  · exact (Graph.keys_map _).trans (h.keys hone)
  · have hget := Graph.get_map (fun _ l => l.filter fun d => d ≠ r.name)
      (show name ∈ c.waiting.keys by rw [h.keys hone]; exact hname)
    have hiff := h.waiting hone name hname d
    dsimp only
    rw [hget, List.mem_filter, hiff]
    simp only [Cleanup.stopped, report, List.mem_append, List.mem_singleton,
      Entry.stopReported.injEq, decide_eq_true_eq, not_or, and_assoc]
    exact Iff.rfl
  · have hiff := h.reported (by omega) name
    simp only [Cleanup.stopped, report, List.mem_append, hiff, List.map_append, List.map_cons,
      List.map_nil, List.mem_singleton, Entry.stopReported.injEq]
  · simpa [Cleanup.stopped] using h.unrequested other hother
  · simpa [Cleanup.stopped] using h.unforced (by omega) name

theorem Stops.drained (h : Stops e c) {r : Removal} (refusal : Option String)
    (hp : c.phase = .draining) (hr : r ∈ c.inFlight) : Stops e (c.stopped r refusal) := by
  have htwo : c.phase.stage = 2 := by simp [hp, CleanupPhase.stage]
  have hphase : (c.stopped r refusal).phase = .draining := hp
  refine ⟨h.orderly.report (h.unforced (by omega)), by simp [hphase],
    by simp [hphase, CleanupPhase.stage], by simp [hphase, CleanupPhase.stage], by simp [hphase],
    fun _ name => ?_, fun other hother => ?_, fun _ name => ?_, fun _ hcount => ?_⟩
  · have hiff := h.reported (by omega) name
    simp only [Cleanup.stopped, report, List.mem_append, hiff, List.map_append, List.map_cons,
      List.map_nil, List.mem_singleton, Entry.stopReported.injEq]
  · simpa [Cleanup.stopped] using h.unrequested other hother
  · simpa [Cleanup.stopped] using h.unforced (by omega) name
  · obtain ⟨_, hnil, _⟩ := h.calm (by omega) hcount
    rw [hnil] at hr
    cases hr

/-- A loop with nothing in flight has nothing queued: of what is queued, one waits for none of the
others, and so for nothing. -/
theorem Stops.queued_eq_nil (h : Stops e c) (hparts : Parts e c) (hp : c.phase = .stops)
    (hnil : c.inFlight = []) : c.queued = [] := by
  by_contra hne
  have hone : c.phase.stage = 1 := by simp [hp, CleanupPhase.stage]
  have hne' : c.queued.map Removal.name ≠ [] := by simpa using hne
  obtain ⟨name, hname, hlast⟩ := PostOrder.exists_unreached e.acyclic hne'
  obtain ⟨r, hr, rfl⟩ := List.mem_map.mp hname
  obtain ⟨d, hd⟩ := List.exists_mem_of_ne_nil _ (h.held hp r hr)
  obtain ⟨htarget, hreach, hnot⟩ := (h.waiting hone r.name (hparts.queued_targets hr) d).mp hd
  have hforced := hparts.early (by omega)
  rcases hparts.mem_targets htarget with hq | hi | hf | hrep
  · exact hlast d hq hreach
  · rw [hnil] at hi
    cases hi
  · rw [hforced] at hf
    cases hf
  · exact hnot ((h.reported (by omega) d).mpr hrep)

theorem Stops.toNetwork (h : Stops e c) (hp : 2 ≤ c.phase.stage) (hp' : c.phase.stage ≤ 4) :
    Stops e (toNetwork e c) := by
  have hcreates : c.phase ≠ .creates := by
    intro heq
    simp [heq, CleanupPhase.stage] at hp
  unfold Cleanup.toNetwork
  split_ifs
  · exact h.neutral _ _ (by simp [Entry.neutral])
      (.inr ⟨by simp [CleanupPhase.stage], hcreates, hp'⟩)
      fun _ hlt => by omega
  · have hstage : c.phase.stage ≤ CleanupPhase.finishing.stage :=
      hp'.trans (by simp [CleanupPhase.stage])
    have hneutral := h.neutral .finishing [] (by simp)
      (.inr ⟨by simp [CleanupPhase.stage], hcreates, hstage⟩) fun _ hlt => by omega
    simpa using hneutral

theorem Stops.force (h : Stops e c) (hparts : Parts e c) (hp : c.phase = .draining) :
    Stops e (force e c) := by
  have htwo : c.phase.stage = 2 := by simp [hp, CleanupPhase.stage]
  unfold Cleanup.force
  dsimp only
  split_ifs with hnil
  · exact h.toNetwork (by omega) (by omega)
  · have hnames := hparts.names_nodup
    have hleft : ((c.inFlight ++ c.queued).map Removal.name).Nodup := by
      rw [List.map_append, List.nodup_append_comm]
      exact hnames.of_append_left.of_append_left
    have hunreported : ∀ name ∈ (c.inFlight ++ c.queued).map Removal.name,
        .stopReported name ∉ c.log := by
      intro name hname hmem
      have hrep := (h.reported (by omega) name).mp hmem
      have hdisjoint := List.disjoint_of_nodup_append hnames
      refine hdisjoint ?_ hrep
      simp only [List.map_append, List.mem_append] at hname ⊢
      tauto
    have hneutral : ∀ x ∈ [Entry.escalated, .post (.forceRemoving c.interrupt.lastSignal)],
        x.neutral = true := by simp [Entry.neutral]
    have hlog : c.log ++ .escalated :: .post (.forceRemoving c.interrupt.lastSignal) ::
        (c.inFlight ++ c.queued).map (fun r => Entry.forceRequested r.name) =
        c.log ++ [.escalated, .post (.forceRemoving c.interrupt.lastSignal)] ++
          ((c.inFlight ++ c.queued).map Removal.name).map Entry.forceRequested := by
      simp [Function.comp_def]
    have horderly := (h.orderly.append_neutral hneutral).force hleft
      (fun name => by simpa using h.unforced (by omega) name)
      (fun name hname => by simpa using hunreported name hname)
    rw [hlog]
    refine ⟨horderly, by simp, by simp [CleanupPhase.stage], by simp [CleanupPhase.stage], by simp,
      by simp [CleanupPhase.stage], by simp, by simp [CleanupPhase.stage], fun _ hcount => ?_⟩
    obtain ⟨hq, hi, _⟩ := h.calm (by omega) hcount
    exact absurd (by simp [hq, hi]) hnil

theorem step_stops (hparts : Parts e c) (h : Stops e c) (hstep : step e c event = some c') :
    Stops e c' := by
  have hstay : ∀ new : List Entry, (∀ x ∈ new, x.neutral = true) → Stops e { c with
      log := c.log ++ new } := by
    intro new hnew
    exact h.neutral c.phase new hnew (.inl rfl) fun h2 hlt => by omega
  cases step_cases hstep with
  | @signal s _ => exact { hstay [.signalled s] (by simp [Entry.neutral]) with }
  | @count s _ =>
      have hcounted := hstay [.counted s] (by simp [Entry.neutral])
      refine { hcounted with calm := fun hs hlt => hcounted.calm hs ?_ }
      have hlt' : c.interrupt.count + 1 < e.escalateAt := hlt
      show c.interrupt.count < e.escalateAt
      omega
  | makes _ _ _ => exact { h with }
  | makesNetwork _ => exact { h with }
  | refused _ _ _ => exact { h with }
  | prepared _ _ => exact { h with }
  | registered _ _ _ _ _ _ => exact { h with }
  | begun hp _ => exact h.beginRemovals hparts hp
  | begunEarly hp _ _ => exact h.beginRemovals hparts hp
  | batch hp => exact h.batch hparts hp
  | loopEnded hp hnil =>
      have hq := h.queued_eq_nil hparts hp hnil
      have hneutral := h.neutral .draining [] (by simp) (.inr (by simp [hp, CleanupPhase.stage]))
        fun _ _ _ => ⟨hq, hnil, fun name hname => ?_⟩
      · simpa using hneutral
      · have hf := hparts.early (by simp [hp, CleanupPhase.stage])
        rcases hparts.mem_targets hname with hmem | hmem | hmem | hmem
        · simp [hq] at hmem
        · simp [hnil] at hmem
        · simp [hf] at hmem
        · exact (h.reported (by simp [hp, CleanupPhase.stage]) name).mpr hmem
  | loopCut hp hcount =>
      have hneutral := h.neutral .draining [] (by simp) (.inr (by simp [hp, CleanupPhase.stage]))
        fun _ _ hlt => by omega
      simpa using hneutral
  | stopped hp _ => exact h.stopped _ hp
  | drained hp hr => exact h.drained _ hp hr
  | force hp => exact h.force hparts hp
  | @forceAnswered r refusal hp _ =>
      exact { hstay [.forceReported r.name] (by simp [Entry.neutral]) with
        reported := by simp [removedByForce, report, hp, CleanupPhase.stage] }
  | forcedDone hp _ =>
      exact h.toNetwork (by simp [hp, CleanupPhase.stage]) (by simp [hp, CleanupPhase.stage])
  | forcedAbandoned hp _ _ =>
      have habandoned : Stops e { c with
          abandoned := true
          log := c.log ++ [.abandoned] } := { hstay [.abandoned] (by simp [Entry.neutral]) with }
      exact habandoned.toNetwork (by simp [hp, CleanupPhase.stage])
        (by simp [hp, CleanupPhase.stage])
  | networkAnswered hp =>
      have hneutral := h.neutral .finishing [] (by simp) (.inr (by simp [hp, CleanupPhase.stage]))
        fun _ hlt => by simp [hp, CleanupPhase.stage] at hlt
      rw [List.append_nil] at hneutral
      exact { hneutral with }
  | escalated hp _ =>
      exact h.neutral _ _ (by simp [Entry.neutral]) (.inr (by simp [hp, CleanupPhase.stage]))
        fun _ hlt => by simp [hp, CleanupPhase.stage] at hlt
  | networkAbandoned hp _ =>
      have hneutral := h.neutral .finishing [.abandoned] (by simp [Entry.neutral])
        (.inr (by simp [hp, CleanupPhase.stage])) fun _ hlt => by
          simp [hp, CleanupPhase.stage] at hlt
      exact { hneutral with }
  | finish hp =>
      have hneutral := h.neutral .finished _ (neutral_of_posts (finalPosts_posts e c))
        (.inr (by simp [hp, CleanupPhase.stage])) fun _ hlt => by
          simp [hp, CleanupPhase.stage] at hlt
      exact { hneutral with }

theorem runs_stops (h : Runs e c) : Stops e c := by
  refine h.invariant ?_ fun _ _ _ hr hstops hstep => step_stops (runs_parts hr) hstops hstep
  exact ⟨.of_neutral (by simp [start]), by simp [start], by simp [start, CleanupPhase.stage],
    by simp [start, CleanupPhase.stage], by simp [start], by simp [start], by simp [start],
    by simp [start], by simp [start, CleanupPhase.stage]⟩

/-- What is to be removed is what was created, once that has been read. -/
theorem Parts.targets_perm (h : Parts e c) (hclean : e.shouldCleanup = true)
    (hp : c.phase ≠ .creates) : c.targets.Perm c.names := by
  unfold targets Cleanup.names
  rw [h.toRemove, if_neg (by simp [hp, hclean])]
  exact (removalOrder_perm e.root c.created).map _

/-- A cleanup stops what was created dependents first, requests each removal once, and removes by
force what it has not heard of, after a signal only. -/
structure InOrder (e : RunEnd) (c : Cleanup) : Prop where
  dependentsFirst : ∀ before name after, c.log = before ++ .stopRequested name :: after →
    ∀ d ∈ c.names, Relation.TransGen (Edge e.graph.get) d name → .stopReported d ∈ before
  requestedOnce : ∀ name, c.log.count (.stopRequested name) ≤ 1
  forcedOnce : ∀ name, c.log.count (.forceRequested name) ≤ 1
  forcedUnreported : ∀ name, .forceRequested name ∈ c.log → .stopReported name ∉ c.log
  attempted : c.interrupt.count < e.escalateAt → 2 ≤ c.phase.stage →
    ∀ name ∈ c.names, .stopReported name ∈ c.log
  unforced : c.interrupt.count < e.escalateAt → ∀ name, .forceRequested name ∉ c.log

/-- In every cleanup, whatever the order of the answers and of the signals. -/
theorem cleanup_in_order (h : Runs e c) (hclean : e.shouldCleanup = true) : InOrder e c := by
  have hparts := runs_parts h
  have hstops := runs_stops h
  refine ⟨fun before name after heq d hd hreach => ?_, hstops.orderly.requestedOnce,
    hstops.orderly.forcedOnce, hstops.orderly.apart, fun hcount hp name hname => ?_,
    fun hcount name => ?_⟩
  · have hp : c.phase ≠ .creates := by
      intro hp
      have hneutral := hstops.quiet hp (.stopRequested name) (by simp [heq])
      cases hneutral
    have htarget := (hparts.targets_perm hclean hp).mem_iff.mpr hd
    exact hstops.orderly.ordered before _ after heq name rfl d htarget hreach
  · have hp' : c.phase ≠ .creates := by
      intro heq
      simp [heq, CleanupPhase.stage] at hp
    obtain ⟨_, _, _, hall⟩ := hstops.calm hp hcount
    exact hall name ((hparts.targets_perm hclean hp').mem_iff.mpr hname)
  · rcases Nat.lt_or_ge c.phase.stage 2 with hlt | hge
    · exact hstops.unforced (by omega) name
    · exact (hstops.calm hge hcount).2.2.1 name

end Cleanup

/-! A run of `shop` that `SIGINT` ended, with both containers and the network there. -/

def shopEnd : RunEnd where
  runId := "run"
  graph := shop.graph
  root := shop.root
  existingNetwork := none
  networkName := some "ratect-run"
  networkSent := false
  created := [⟨"app", "1"⟩, ⟨"db", "2"⟩]
  pending := []
  result := .interrupted
  interrupt := Interrupt.new.recordSignal .interrupt
  recording := []
  cleanupAfterSuccess := true
  cleanupAfterFailure := true
  topLevel := true
  acyclic := by
    have hbuild : buildDependencyGraph shop.containers shop.root none = .ok shop.graph := by decide
    exact (buildDependencyGraph_spec hbuild).acyclic
  names := by decide
  ids := by decide
  preparing := by simp
  finished := by simp

/-- Both containers are stopped, and the stop of `app` is refused. -/
def shopStops : List CleanupEvent :=
  [.proceed, .proceed, .stopAnswered ⟨"app", "1"⟩ (some "refused"), .proceed,
    .stopAnswered ⟨"db", "2"⟩ none, .proceed, .proceed, .proceed]

theorem cleanup_in_order_shop : ∃ c, Cleanup.Runs shopEnd c ∧ Cleanup.InOrder shopEnd c ∧
    c.log = [.stopRequested "app", .stopReported "app", .stopRequested "db", .stopReported "db",
      .networkRequested] := by
  have hrun : ((Transition.run (Cleanup.step shopEnd) (Cleanup.start shopEnd) shopStops).map
      fun c => c.log) = some [.stopRequested "app", .stopReported "app", .stopRequested "db",
        .stopReported "db", .networkRequested] := by decide +kernel
  obtain ⟨c, hc, hlog⟩ := Transition.exists_reachable_of_run hrun
  exact ⟨c, hc, Cleanup.cleanup_in_order hc (by decide), hlog⟩

end Ratect
