import Ratect.DisplayEvents

/-! # What the live display leaves alone

Along the engine's tasks, with notices, warnings and errors between any two events and the task's
own output while it runs, the display never changes what is before its live rows
(`display_keeps_to_its_rows`).  It gives a block up before anything is written below it, and the
engine's order (`Phase`) does the rest: a block is painted only between a task's start and its end,
and a countdown only during its cleanup. -/

namespace Ratect.Ui.Fancy

open Terminal (Screen Place Keeps Advances startOf)

/-- How far the engine is with a task. -/
inductive Phase where
  | between
  | starting
  | startup
  | running
  | ended
  | cleaning
  | cleaned
deriving DecidableEq

/-- Nothing of a task is left to come but its summary. -/
def Phase.idle : Phase → Bool
  | .between | .ended | .cleaned => true
  | _ => false

/-- The order in which the engine posts what begins or ends a part of a task's run; anything else
may come at any time. -/
def Phase.next (phase : Phase) : TaskEvent → Option Phase
  | .taskStarting _ => if phase.idle then some .starting else none
  | .prerequisitesOnly _ => if phase.idle then some .between else none
  | .taskGraphResolved _ => if phase = .starting then some .startup else none
  | .runningTaskContainer .. => if phase = .startup then some .running else none
  | .runEnded _ =>
      if phase = .starting ∨ phase = .startup ∨ phase = .running then some .ended else none
  | .cleanupStarting _ => if phase = .ended then some .cleaning else none
  | .cleanupFinished => if phase = .cleaning then some .cleaned else none
  | .taskFinished .. | .taskFailed .. =>
      if phase = .ended ∨ phase = .cleaned then some .between else none
  | _ => some phase

/-- The engine, the display and the screen. -/
structure Moment where
  phase : Phase
  state : State
  screen : Screen

namespace Display

variable (d : Display)

/-- After an event, of which the terminal was in raw mode or not. -/
def after (m : Moment) (raw : Bool) (event : TaskEvent) (phase : Phase) : Moment where
  phase := phase
  state := (d.post raw m.state event).1
  screen := d.shows raw (d.post raw m.state event).2 m.screen

/-- Events posted in the engine's order. -/
inductive Posts : Moment → Moment → Prop
  | refl (m : Moment) : Posts m m
  | next {m m' : Moment} {event : TaskEvent} {phase : Phase} (raw : Bool) : Posts m m' →
      m'.phase.next event = some phase → event.Composed → Posts m (d.after m' raw event phase)

/-- What the engine comes to.  While a task's container runs, its own output may do anything to the
screen; it does not end in the middle of an escape sequence. -/
inductive Reached : Moment → Prop
  | start {screen : Screen} : screen.reading = .ground → Reached ⟨.between, .default, screen⟩
  | posted {m m' : Moment} : Reached m → d.Posts m m' → Reached m'
  | output {m : Moment} {screen : Screen} :
      Reached m → m.phase = .running → screen.reading = .ground →
      Reached { m with screen := screen }

/-- What the display counts as its own is what it shows. -/
structure OwnRows (state : State) (screen : Screen) : Prop where
  block : state.keepUpdatingStartup = true → state.paintedLines ≠ 0 →
    screen.col = 0 ∧ state.paintedLines = state.lines.length ∧ state.paintedLines ≤ screen.row ∧
      ∀ i line, state.lines[i]? = some line →
        screen.cells (screen.row - state.paintedLines + i) = d.lineRow line
  countdown : state.cleanupShown = true → d.Countdown state screen

/-- What is live goes by the phase. -/
structure InPhase (phase : Phase) (state : State) : Prop where
  starting : state.keepUpdatingStartup = true ↔ phase = .starting ∨ phase = .startup
  cleaning : state.cleanupLive = true → phase = .cleaning
  shown : state.cleanupShown = true → phase = .cleaning

variable {d} {raw : Bool} {state : State} {screen : Screen}
    {phase phase' : Phase} {event : TaskEvent}

theorem InPhase.frozen (h : InPhase phase state) (hphase : phase ≠ .starting ∧ phase ≠ .startup) :
    state.keepUpdatingStartup = false := by
  by_contra hlive
  rcases h.starting.mp (Bool.not_eq_false _ ▸ hlive) with hstarting | hstartup
  · exact hphase.1 hstarting
  · exact hphase.2 hstartup

/-- The engine's order is what the display relies on. -/
theorem InPhase.timely (h : InPhase phase state) (hnext : phase.next event = some phase') :
    Timely state event := by
  cases event with
  | taskGraphResolved containers =>
      rw [Phase.next] at hnext
      split at hnext
      · next hstarting => exact h.starting.mpr (Or.inl hstarting)
      · cases hnext
  | cleanupStarting cause | cleanupFinished =>
      rw [Phase.next] at hnext
      split at hnext
      · next hphase =>
          subst hphase
          exact h.frozen (by decide)
      · cases hnext
  | taskFinished task exitCode duration | taskFailed task duration =>
      rw [Phase.next] at hnext
      split at hnext
      · next hphase => rcases hphase with rfl | rfl <;> exact h.frozen (by decide)
      · cases hnext
  | _ => trivial

theorem InPhase.block (h : InPhase phase state) :
    InPhase phase (repaintStartup d.rendering (d.console raw) (some d.columns) state).1 := by
  obtain ⟨lines, width, text, hsame⟩ := repainted (d := d) state
  rw [hsame]
  exact ⟨h.starting, h.cleaning, h.shown⟩

theorem InPhase.countdown (h : InPhase phase state) (hcleaning : phase = .cleaning) :
    InPhase phase (repaintCleanup d.rendering (d.console raw) (some d.columns) state).1 :=
  ⟨h.starting, h.cleaning, fun _ => hcleaning⟩

theorem inPhase_cleared (hcleaned : state.cleanupLive = false)
    (hfrozen : state.keepUpdatingStartup = false)
    (hphase' : phase' ≠ .starting ∧ phase' ≠ .startup) :
    InPhase phase' (clearCleanupLine (d.console raw) (some d.columns) state).1 := by
  have hstarting : (clearCleanupLine (d.console raw) (some d.columns) state).1.keepUpdatingStartup =
      false ∧
      (clearCleanupLine (d.console raw) (some d.columns) state).1.cleanupLive = false ∧
      (clearCleanupLine (d.console raw) (some d.columns) state).1.cleanupShown = false := by
    unfold Fancy.clearCleanupLine
    split
    · exact ⟨hfrozen, hcleaned, rfl⟩
    · next hshown => exact ⟨hfrozen, hcleaned, Bool.eq_false_of_not_eq_true hshown⟩
  refine ⟨?_, fun h => ?_, fun h => ?_⟩
  · rw [hstarting.1]
    simp [hphase'.1, hphase'.2]
  · rw [hstarting.2.1] at h
    cases h
  · rw [hstarting.2.2] at h
    cases h

/-- And it is kept. -/
theorem InPhase.next (h : InPhase phase state) (hnext : phase.next event = some phase') :
    InPhase phase' (d.post raw state event).1 := by
  unfold post
  cases event with
  | notice message | warning message | error message =>
      cases hnext
      have hdisplaced : InPhase phase (displaced state) :=
        ⟨h.starting, h.cleaning, fun h => Bool.noConfusion h⟩
      dsimp only [Fancy.post, Console.printStderrClass, andThen]
      split
      · split
        · next hcleaning => exact hdisplaced.countdown (h.cleaning hcleaning)
        · exact hdisplaced
      · exact h
  | taskStarting task =>
      rw [Phase.next] at hnext
      split at hnext
      · cases hnext
        exact ⟨by simp [Fancy.post, Console.printStderrClass], fun h => Bool.noConfusion h,
          fun h => Bool.noConfusion h⟩
      · cases hnext
  | prerequisitesOnly task =>
      rw [Phase.next] at hnext
      split at hnext
      · cases hnext
        exact ⟨by simp [Fancy.post, Console.printStderrClass, State.default],
          fun h => Bool.noConfusion h,
          fun h => Bool.noConfusion h⟩
      · cases hnext
  | taskGraphResolved containers =>
      rw [Phase.next] at hnext
      split at hnext
      · next hstarting =>
          cases hnext
          subst hstarting
          refine InPhase.block ⟨by simp, fun hcleaning => ?_, fun hshown => ?_⟩
          · exact Phase.noConfusion (h.cleaning hcleaning)
          · exact Phase.noConfusion (h.shown hshown)
      · cases hnext
  | runningTaskContainer container command =>
      rw [Phase.next] at hnext
      split at hnext
      · next hstartup =>
          cases hnext
          subst hstartup
          have hlive := h.starting.mpr (Or.inr rfl)
          dsimp only [Fancy.post, Console.printStderrClass]
          rw [if_pos hlive]
          let running :=
            { state with separatorOwed := true }.setStage container (.runningCommand command)
          obtain ⟨lines, width, text, hsame⟩ : Repainted running
            (repaintStartup d.rendering (d.console raw) (some d.columns) running).1 :=
              repainted running
          unfold andThen
          dsimp only
          rw [hsame]
          refine ⟨by simp, fun hcleaning => ?_, fun hshown => ?_⟩
          · exact Phase.noConfusion (h.cleaning hcleaning)
          · exact Phase.noConfusion (h.shown hshown)
      · cases hnext
  | runEnded task =>
      rw [Phase.next] at hnext
      split at hnext
      · next hphase =>
          cases hnext
          have hne : phase ≠ .cleaning := by
            rcases hphase with rfl | rfl | rfl <;> decide
          refine ⟨by simp [Fancy.post, Console.printStderrClass], fun hcleaning => ?_,
            fun hshown => ?_⟩
          · exact absurd (h.cleaning hcleaning) hne
          · exact absurd (h.shown hshown) hne
      · cases hnext
  | cleanupStarting cause =>
      rw [Phase.next] at hnext
      split at hnext
      · next hended =>
          cases hnext
          subst hended
          have hfrozen : state.keepUpdatingStartup = false := h.frozen (by decide)
          have hcleaning : InPhase .cleaning { state with cleanupLive := true } := by
            refine ⟨?_, fun _ => rfl, fun _ => rfl⟩
            dsimp only
            rw [hfrozen]
            simp
          exact hcleaning.countdown rfl
      · cases hnext
  | cleanupFinished =>
      rw [Phase.next] at hnext
      split at hnext
      · next hcleaning =>
          cases hnext
          subst hcleaning
          have hfrozen : state.keepUpdatingStartup = false := h.frozen (by decide)
          have hcleared : InPhase .cleaned (clearCleanupLine (d.console raw) (some d.columns)
              { state with cleanupLive := false }).1 := inPhase_cleared rfl hfrozen (by decide)
          exact hcleared
      · cases hnext
  | taskFinished task exitCode duration | taskFailed task duration =>
      have htimely : state.keepUpdatingStartup = false := h.timely hnext
      rw [Phase.next] at hnext
      split at hnext
      · next hphase =>
          cases hnext
          have hcleaned : state.cleanupLive = false := by
            by_contra hcleaning
            have hcleaning := h.cleaning (Bool.not_eq_false _ ▸ hcleaning)
            rw [hcleaning] at hphase
            rcases hphase with hphase | hphase <;> cases hphase
          have hcleared : InPhase .between
              (clearCleanupLine (d.console raw) (some d.columns) state).1 :=
            inPhase_cleared hcleaned htimely (by decide)
          exact ⟨hcleared.starting, hcleared.cleaning, hcleared.shown⟩
      · cases hnext
  | dependencyExitedUnexpectedly container exitCode =>
      cases hnext
      dsimp only [Fancy.post, Console.printStderrClass]
      split
      · exact InPhase.block ⟨h.starting, h.cleaning, h.shown⟩
      · unfold andThen
        dsimp only
        split
        · next hcleaning =>
            exact InPhase.countdown ⟨h.starting, h.cleaning, fun h => Bool.noConfusion h⟩
              (h.cleaning hcleaning)
        · exact ⟨h.starting, h.cleaning, fun h => Bool.noConfusion h⟩
  | containerCreated container =>
      cases hnext
      dsimp only [Fancy.post, Console.printStderrClass, andThen]
      split
      · have hpainted : InPhase phase (repaintStartup d.rendering (d.console raw) (some d.columns)
            (state.startWaiting fun line => line.info.name = container)).1 :=
          InPhase.block ⟨h.starting, h.cleaning, h.shown⟩
        exact ⟨hpainted.starting, hpainted.cleaning, hpainted.shown⟩
      · exact ⟨h.starting, h.cleaning, h.shown⟩
  | containerRemoved container | removingNetwork =>
      cases hnext
      dsimp only [Fancy.post, Console.printStderrClass]
      split
      · next hcleaning =>
          exact InPhase.countdown ⟨h.starting, h.cleaning, h.shown⟩ (h.cleaning hcleaning)
      · exact ⟨h.starting, h.cleaning, h.shown⟩
  | _ =>
      cases hnext
      dsimp only [Fancy.post, Console.printStderrClass]
      split
      · split
        · next hlines =>
            obtain ⟨-, lines, ready, owed, rfl⟩ := (startupLines_relined hlines).1
            exact InPhase.block ⟨h.starting, h.cleaning, h.shown⟩
        · exact h
      · exact h

/-- In whatever the engine comes to, the rows that the display counts are there. -/
theorem Reached.sound {m : Moment} (h : d.Reached m) :
    InPhase m.phase m.state ∧ d.Sound m.state m.screen := by
  have hposts : ∀ {m m' : Moment}, d.Posts m m' → InPhase m.phase m.state →
      d.Sound m.state m.screen →
      InPhase m'.phase m'.state ∧ d.Sound m'.state m'.screen := by
    intro m m' hposts hphase hsound
    induction hposts with
    | refl => exact ⟨hphase, hsound⟩
    | next raw _ hnext hcomposed ih =>
        obtain ⟨hphase, hsound⟩ := ih
        exact ⟨hphase.next hnext, (post_goes hsound (hphase.timely hnext) hcomposed).sound⟩
  induction h with
  | start hground =>
      refine ⟨⟨by simp [State.default], fun h => Bool.noConfusion h, fun h => Bool.noConfusion h⟩,
        hground,
        fun h => Bool.noConfusion h, fun h => Bool.noConfusion h, fun h => Bool.noConfusion h,
          fun line hline => ?_⟩
      cases hline
  | posted _ hposted ih => exact hposts hposted ih.1 ih.2
  | output _ hrunning hground ih =>
      obtain ⟨hphase, hsound⟩ := ih
      have hfrozen := hphase.frozen (hrunning ▸ by decide)
      refine ⟨hphase, hground, fun hlive => ?_, fun hlive => ?_, fun hshown => ?_, hsound.waits⟩
      · exact Bool.noConfusion (hfrozen.symm.trans hlive)
      · exact Bool.noConfusion (hfrozen.symm.trans hlive)
      · have hcleaning := hphase.shown hshown
        rw [hrunning] at hcleaning
        cases hcleaning

/-- A terminal of 80 columns, with `stderr` on it. -/
def plainDisplay : Display := ⟨plainRendering, true, true, true, 80, by decide, rfl⟩

/-- One container's line below the task's. -/
def blockShown : Moment :=
  let start : Moment := ⟨.between, .default, ⟨fun _ => .blank, 0, 0, .ground⟩⟩
  let app : TaskContainerInfo := ⟨"app".toList, some "alpine".toList, none, [], false, true⟩
  plainDisplay.after (plainDisplay.after start false (.taskStarting "build".toList) .starting) false
    (.taskGraphResolved [app]) .startup

/-- The same terminal without colours. -/
def colourless : Display := ⟨plainRendering, false, false, true, 80, by decide, rfl⟩

/-- After the task's container has written something. -/
def afterOutput (m : Moment) (output : List Char) : Moment :=
  { m with screen := d.device.write false output m.screen }

/-- The container of the task `Api` runs. -/
def apiRuns : Moment :=
  let app : TaskContainerInfo := ⟨"app".toList, some "alpine".toList, none, [], false, true⟩
  let start := colourless.after ⟨.between, .default, ⟨fun _ => .blank, 0, 0, .ground⟩⟩ false
    (.taskStarting "Api".toList) .starting
  colourless.after (colourless.after start false (.taskGraphResolved [app]) .startup) false
    (.runningTaskContainer "app".toList none) .running

/-- Two rows, and the begin of a sequence. -/
def apiWrote : Moment := colourless.afterOutput apiRuns "row\nrow\n\x1b[2".toList

def apiFinished : Moment :=
  colourless.after (colourless.after apiWrote false (.runEnded "Api".toList) .ended) false
    (.taskFinished "Api".toList 0 1) .between

end Display

end Ratect.Ui.Fancy
