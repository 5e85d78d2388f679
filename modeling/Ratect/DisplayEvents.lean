import Ratect.LiveDisplay

/-! # What an event leaves alone

The live rows are a block's or a countdown's (`liveRows`), and `Sound` says that they are where the
display counts them.  Whatever is posted then goes over these alone (`Goes`), and leaves them where
they are counted; one lemma for each part of `FancyEventLogger::post`, and `post_goes` puts them
together. -/

namespace Ratect.Ui.Fancy

open Terminal (Screen Place Keeps Advances startOf)

namespace Display

variable (d : Display)

/-! ### Live rows -/

/-- The row above the cursor is a countdown. -/
structure Countdown (state : State) (screen : Screen) : Prop where
  col : screen.col = 0
  room : 0 < screen.row
  width : state.cleanupWidth = some d.columns
  shown : ∃ counted under,
    screen.cells (screen.row - 1) = d.shownOver (cleanupText (d.console false) counted) under

/-- A line that waits lists the dependencies that are not ready. -/
def Waits (state : State) : Prop :=
  ∀ line ∈ state.lines, ∀ remaining, line.stage = .waitingForDependencies remaining →
    remaining = line.info.dependencies.filter (· ∉ state.ready)

/-- The rows that are counted as painted are there, right above the cursor. -/
structure Sound (state : State) (screen : Screen) : Prop where
  ground : screen.reading = .ground
  block : state.keepUpdatingStartup = true → d.Block state screen
  apart : state.keepUpdatingStartup = true → state.cleanupShown = false ∧ state.cleanupLive = false
  countdown : state.cleanupShown = true → d.Countdown state screen
  waits : Waits state

/-- How many rows the display may go back over. -/
def liveRows (state : State) : ℕ :=
  if state.keepUpdatingStartup then state.paintedLines else if state.cleanupShown then 1 else 0

/-- Where the live rows begin, or the cursor is if there are none. -/
def liveFrom (state : State) (screen : Screen) : Place :=
  if liveRows state = 0 then screen.cursor else startOf (screen.row - liveRows state)

/-- What was before the live rows stays, and they do not begin any earlier. -/
structure Goes (raw : Bool) (state : State) (screen : Screen)
    (result : State × List Write) : Prop where
  sound : d.Sound result.1 (d.shows raw result.2 screen)
  keeps : Keeps (liveFrom state screen) screen (d.shows raw result.2 screen)
  forward : liveFrom state screen ≤ liveFrom result.1 (d.shows raw result.2 screen)

variable {d} {raw : Bool} {state : State} {screen : Screen} {result : State × List Write}

theorem liveFrom_le_cursor (state : State) (screen : Screen) :
    liveFrom state screen ≤ screen.cursor := by
  unfold liveFrom
  split
  · exact le_rfl
  · exact Terminal.startOf_le_cursor (Nat.sub_le _ _)

theorem Goes.andThen {first : State × List Write} {next : State → State × List Write}
    (h : d.Goes raw state screen first)
    (hnext : d.Goes raw first.1 (d.shows raw first.2 screen) (next first.1)) :
    d.Goes raw state screen (andThen first next) := by
  have hshows : d.shows raw (Fancy.andThen first next).2 screen =
      d.shows raw (next first.1).2 (d.shows raw first.2 screen) := shows_append _ _
  constructor
  · rw [hshows]
    exact hnext.sound
  · rw [hshows]
    exact h.keeps.trans (hnext.keeps.mono h.forward)
  · rw [hshows]
    exact h.forward.trans hnext.forward

/-- What only goes on from the cursor, with no live rows after it. -/
theorem Goes.of_advances (hsound : d.Sound result.1 (d.shows raw result.2 screen))
    (hadvances : Advances screen (d.shows raw result.2 screen)) (hlive : liveRows result.1 = 0) :
    d.Goes raw state screen result := by
  refine ⟨hsound, hadvances.keeps.mono (liveFrom_le_cursor state screen), ?_⟩
  have hcursor : liveFrom result.1 (d.shows raw result.2 screen) =
      (d.shows raw result.2 screen).cursor := if_pos hlive
  rw [hcursor]
  exact (liveFrom_le_cursor state screen).trans hadvances.forward

/-- Nothing is written, and no more is live. -/
theorem Goes.quiet {state' : State} (hsound : d.Sound state' screen)
    (hlive : liveRows state' = liveRows state) : d.Goes raw state screen (state', []) := by
  refine ⟨hsound, .refl _ _, ?_⟩
  unfold liveFrom
  rw [hlive]
  exact le_rfl

theorem Goes.of_live {state' : State} (h : d.Goes raw state' screen result)
    (hlive : liveRows state' = liveRows state) : d.Goes raw state screen result := by
  have hfrom : liveFrom state' screen = liveFrom state screen := by
    unfold liveFrom
    rw [hlive]
  exact ⟨h.sound, hfrom ▸ h.keeps, hfrom ▸ h.forward⟩

/-- A message on a line of its own. -/
theorem advances_line {line : Text} (h : Message line) (hground : screen.reading = .ground) :
    Advances screen (d.printed (line ++ [newline]) screen) ∧
      (d.printed (line ++ [newline]) screen).reading = .ground ∧
        (d.printed (line ++ [newline]) screen).col = 0 := by
  obtain ⟨hline, hreading⟩ := advances_message (d := d) h hground
  rw [printed_append]
  have hend : Message [newline] := .of_glyphs (by simp [newline, Harmless])
  obtain ⟨hadvances, hreading⟩ := advances_message (d := d) hend hreading
  exact ⟨hline.trans hadvances, hreading, rfl⟩

/-! ### The block -/

/-- Painting the block, once the lines have changed. -/
theorem goes_repaintStartup {state' : State} (hsound : d.Sound state screen)
    (hlive : state'.keepUpdatingStartup = true) (hdrawn : d.Drawn state' screen)
    (hfrom : liveFrom state screen ≤ startOf (screen.row - state'.paintedLines))
    (hwaits : Waits state') (hapart : state'.cleanupShown = false ∧ state'.cleanupLive = false) :
    d.Goes raw state screen (repaintStartup d.rendering (d.console raw)
      (some d.columns) state') := by
  obtain ⟨⟨lines, width, text, hsame⟩, hground, hblock, hkeeps, hforward⟩ :=
    @repaintStartup_block d raw state' screen hdrawn hsound.ground
  refine ⟨⟨hground, fun _ => hblock, fun _ => ?_, fun h => ?_, ?_⟩, hkeeps.mono hfrom, ?_⟩
  · rw [hsame]
    exact hapart
  · rw [hsame] at h
    rw [hapart.1] at h
    cases h
  · rw [hsame]
    exact hwaits
  · refine hfrom.trans ?_
    have hrows : liveRows (repaintStartup d.rendering (d.console raw) (some d.columns) state').1 =
        (repaintStartup d.rendering (d.console raw) (some d.columns) state').1.paintedLines := by
      unfold liveRows
      rw [if_pos]
      rw [hsame]
      exact hlive
    unfold liveFrom
    rw [hrows]
    split
    · next hzero =>
        rw [hzero, Nat.sub_zero] at hforward
        exact Terminal.startOf_le_cursor hforward
    · exact Terminal.startOf_le_startOf hforward

/-! ### The countdown -/

theorem cursor_le_startOf {r : ℕ} (h : screen.row < r) : screen.cursor ≤ startOf r := by
  rw [startOf, Screen.cursor, Prod.Lex.toLex_le_toLex]
  exact Or.inl h

theorem message_cleanupText (state : State) : Message (cleanupText (d.console false) state) :=
  (row_cleanupText (d.console false) state).message

/-- A countdown painted on a row that is no earlier than the live ones. -/
theorem goes_countdown (counted : State) (r : ℕ) (under : Terminal.Row)
    (hsound : d.Sound state screen) (hfrozen : result.1.keepUpdatingStartup = false)
    (hshown : result.1.cleanupShown = true) (hwidth : result.1.cleanupWidth = some d.columns)
    (hwaits : Waits result.1)
    (hwrites : d.shows raw result.2 screen =
      { screen with
        cells :=
          Function.update screen.cells r (d.shownOver (cleanupText (d.console false) counted) under)
        row := r + 1
        col := 0 })
    (hfrom : liveFrom state screen ≤ startOf r) : d.Goes raw state screen result := by
  have hlive : ∀ screen' : Screen, liveFrom result.1 screen' = startOf (screen'.row - 1) := by
    intro screen'
    unfold liveFrom liveRows
    rw [hfrozen, hshown]
    rfl
  have hnever : ∀ {P : Prop}, result.1.keepUpdatingStartup = true → P := by
    intro P h
    rw [hfrozen] at h
    cases h
  refine ⟨⟨?_, hnever, hnever, fun _ => ?_, hwaits⟩, ?_, ?_⟩
  · rw [hwrites]
    exact hsound.ground
  · rw [hwrites]
    exact ⟨rfl, Nat.succ_pos _, hwidth, counted, under, Function.update_self _ _ _⟩
  · rw [hwrites]
    refine Keeps.mono (.of_rows fun row hrow => ?_) hfrom
    exact Function.update_of_ne (Nat.ne_of_lt hrow) _ _
  · rw [hwrites, hlive]
    exact hfrom

/-- A countdown goes over the one before it, or on a row of its own. -/
theorem goes_repaintCleanup (hsound : d.Sound state screen)
    (hfrozen : state.keepUpdatingStartup = false) :
    d.Goes raw state screen (repaintCleanup d.rendering (d.console raw)
      (some d.columns) state) := by
  let text := cleanupText (d.console false) state
  have hwrites : (repaintCleanup d.rendering (d.console raw) (some d.columns) state).2 =
      [(d.console raw).print .progress ((if state.cleanupShown then
          if state.cleanupWidth = some d.columns then cursorUp 1 ++ clearRow else own "\n"
        else own "\n") ++ d.fitted text ++ own "\n")] := rfl
  cases hshown : state.cleanupShown with
  | true =>
      have hcountdown := hsound.countdown hshown
      refine goes_countdown state (screen.row - 1) .blank hsound hfrozen rfl rfl hsound.waits ?_ ?_
      · rw [hwrites, hshown, shows_print, if_pos rfl, if_pos hcountdown.width,
          List.append_assoc, List.append_assoc, printed_append,
          printed_cursorUp Nat.one_pos hsound.ground, printed_append,
          printed_clearRow (by exact hsound.ground),
          printed_fitted (message_cleanupText state) (by exact hsound.ground) rfl]
        dsimp only
        rw [Function.update_self, Function.update_idem]
      · unfold liveFrom liveRows
        rw [hfrozen, hshown]
        exact le_rfl
  | false =>
      refine goes_countdown state (screen.row + 1) (screen.cells (screen.row + 1)) hsound hfrozen
        rfl rfl hsound.waits
        ?_ ?_
      · rw [hwrites, hshown, shows_print, if_neg Bool.false_ne_true, List.append_assoc,
          printed_append, printed_break,
          printed_fitted (message_cleanupText state) (by exact hsound.ground) rfl]
      · unfold liveFrom liveRows
        rw [hfrozen, hshown]
        exact cursor_le_startOf (Nat.lt_succ_self _)

/-- Of the countdown only an empty row is left. -/
theorem goes_clearCleanupLine (hsound : d.Sound state screen)
    (hfrozen : state.keepUpdatingStartup = false) :
    d.Goes raw state screen (clearCleanupLine (d.console raw) (some d.columns) state) := by
  unfold clearCleanupLine
  split
  · next hshown =>
      have hcountdown := hsound.countdown hshown
      rw [if_pos hcountdown.width]
      have hwrites : d.shows raw [(d.console raw).print .progress (cursorUp 1 ++ clearRow)] screen =
          { screen with
            cells := Function.update screen.cells (screen.row - 1) .blank, row :=
              screen.row - 1, col := 0 } := by
        rw [shows_print, printed_append, printed_cursorUp Nat.one_pos hsound.ground,
          printed_clearRow (by exact hsound.ground)]
      have hfrom : liveFrom state screen = startOf (screen.row - 1) := by
        unfold liveFrom liveRows
        rw [hfrozen, hshown]
        rfl
      refine ⟨⟨?_, fun h => ?_, fun h => ?_, fun h => Bool.noConfusion h, hsound.waits⟩, ?_, ?_⟩
      · rw [hwrites]
        exact hsound.ground
      · rw [hfrozen] at h
        cases h
      · rw [hfrozen] at h
        cases h
      · rw [hwrites, hfrom]
        exact .of_rows fun row hrow => Function.update_of_ne (Nat.ne_of_lt hrow) _ _
      · rw [hwrites, hfrom]
        unfold liveFrom liveRows
        rw [hfrozen]
        exact le_rfl
  · exact .quiet hsound rfl

/-! ### Lines -/

/-- A line below the live rows, in a state that has none any more. -/
theorem goes_line {state' : State} {line : Text} (h : Message line) (hsound : d.Sound state screen)
    (hfrozen : state'.keepUpdatingStartup = false) (hshown : state'.cleanupShown = false)
    (hwaits : Waits state') :
    d.Goes raw state screen (state', [(d.console raw).println .progress line]) := by
  have hwrites : d.shows raw [(d.console raw).println .progress line] screen =
      d.printed (line ++ [newline]) screen :=
    shows_print _
  obtain ⟨hadvances, hground, -⟩ := advances_line (d := d) h hsound.ground
  refine .of_advances ⟨?_, fun h => ?_, fun h => ?_, fun h => ?_, hwaits⟩ ?_ ?_
  · rw [hwrites]
    exact hground
  · rw [hfrozen] at h
    cases h
  · rw [hfrozen] at h
    cases h
  · rw [hshown] at h
    cases h
  · rw [hwrites]
    exact hadvances
  · unfold liveRows
    rw [hfrozen, hshown]
    rfl

/-! ### The lines of a block -/

/-- The same but for the stages of the lines, the containers that are ready, and whether a separator
is owed. -/
def Relined (state state' : State) : Prop :=
  state'.lines.length = state.lines.length ∧
    ∃ lines ready owed,
      state' = { state with lines := lines, ready := ready, separatorOwed := owed }

theorem waits_map {f : ContainerLine → ContainerLine}
    (hf : ∀ line ∈ state.lines, ∀ remaining, (f line).stage = .waitingForDependencies remaining →
      remaining = (f line).info.dependencies.filter (· ∉ state.ready)) :
    Waits { state with lines := state.lines.map f } := by
  intro line hline remaining hstage
  obtain ⟨line, hmem, rfl⟩ := List.mem_map.mp hline
  exact hf line hmem remaining hstage

theorem waits_setStage (h : Waits state) (container : Str) {stage : Stage}
    (hstage : ∀ remaining, stage ≠ .waitingForDependencies remaining) :
    Waits (state.setStage container stage) := by
  intro line hline remaining hwaiting
  obtain ⟨i, hi⟩ := List.mem_iff_getElem?.mp hline
  rw [State.setStage, List.getElem?_modify] at hi
  split at hi
  · cases hold : state.lines[i]? with
    | none =>
        rw [hold] at hi
        cases hi
    | some old =>
        rw [hold] at hi
        cases hi
        exact absurd hwaiting (hstage remaining)
  · change Option.map id _ = _ at hi
    rw [Option.map_id] at hi
    exact h line (List.mem_of_getElem? hi) remaining hwaiting

theorem waits_startWaiting (h : Waits state) (starts : ContainerLine → Bool) :
    Waits (state.startWaiting starts) := by
  refine waits_map fun line hline remaining hstage => ?_
  split at hstage
  · next hstarts =>
      rw [if_pos hstarts]
      cases hstage
      rfl
  · next hstarts =>
      rw [if_neg hstarts]
      exact h line hline remaining hstage

theorem mem_insertName {name other : Str} {names : List Str} :
    other ∈ State.insertName name names ↔ other = name ∨ other ∈ names := by
  unfold State.insertName
  split
  · next hmem =>
      constructor
      · exact Or.inr
      · rintro (rfl | h)
        · exact hmem
        · exact h
  · exact List.mem_orderedInsert (· ≤ ·)

theorem waits_markReady (h : Waits state) (container : Str) :
    Waits (state.markReady container) := by
  have hset : Waits (state.setStage container .ready) :=
    waits_setStage h container fun _ => Stage.noConfusion
  intro line hline remaining hstage
  obtain ⟨old, hold, rfl⟩ := List.mem_map.mp hline
  have hready : ∀ dependency, dependency ∉ State.insertName container state.ready ↔
      dependency ∉ state.ready ∧ dependency ≠ container := by
    intro dependency
    rw [mem_insertName, not_or, and_comm]
  cases hwaiting : old.stage with
  | waitingForDependencies waiting =>
      have hdrained : State.drain container old =
          { old with stage := .waitingForDependencies (waiting.filter (· ≠ container)) } := by
        unfold State.drain
        rw [hwaiting]
      rw [hdrained] at hstage ⊢
      cases hstage
      rw [hset old hold waiting hwaiting, List.filter_filter]
      refine List.filter_congr fun dependency _ => ?_
      change (decide _ && decide (dependency ∉ state.ready)) =
        decide (dependency ∉ State.insertName container state.ready)
      simp only [hready, Bool.decide_and, Bool.and_comm]
  | _ =>
      unfold State.drain at hstage
      simp only [hwaiting, reduceCtorEq] at hstage

/-- What a startup event does to the lines. -/
theorem startupLines_relined {event : TaskEvent} {state' : State}
    (h : startupLines state event = some state') :
    Relined state state' ∧ (Waits state → Waits state') := by
  have hmap : ∀ f : ContainerLine → ContainerLine,
      Relined state { state with lines := state.lines.map f } :=
    fun f => ⟨List.length_map _, _, _, _, rfl⟩
  have hset : ∀ container stage, Relined state (state.setStage container stage) :=
    fun container stage => ⟨List.length_modify .., _, _, _, rfl⟩
  have hready : ∀ container, Relined state (state.markReady container) := by
    refine fun container => ⟨?_, _, _, _, rfl⟩
    exact (List.length_map _).trans (List.length_modify ..)
  have hstaged : ∀ (p : ContainerLine → Prop) [DecidablePred p] (stage : Stage),
      (∀ remaining, stage ≠ .waitingForDependencies remaining) → Waits state →
      Waits { state with
        lines := state.lines.map fun line => if p line then { line with stage } else line } := by
    intro p _ stage hstage hwaits
    refine waits_map fun line hline remaining hwaiting => ?_
    split at hwaiting
    · exact absurd hwaiting (hstage remaining)
    · next hp =>
        rw [if_neg hp]
        exact hwaits line hline remaining hwaiting
  cases event with
  | imagePullStarting image =>
      cases h
      exact ⟨hmap _, hstaged _ _ fun _ => Stage.noConfusion⟩
  | imagePullProgress image message =>
      cases h
      exact ⟨hmap _, hstaged _ _ fun _ => Stage.noConfusion⟩
  | imagePullCompleted image | imageResolved container =>
      cases h
      exact ⟨hmap _, fun hwaits => waits_startWaiting hwaits _⟩
  | imageBuildProgress tag message =>
      rw [startupLines] at h
      split at h
      · cases h
      · cases h
        exact ⟨hmap _, hstaged _ _ fun _ => Stage.noConfusion⟩
  | containerBecameHealthy container =>
      rw [startupLines] at h
      split at h
      · split at h
        · cases h
          exact ⟨hset _ _, fun hwaits => waits_setStage hwaits _ fun _ => Stage.noConfusion⟩
        · cases h
          exact ⟨hready _, fun hwaits => waits_markReady hwaits _⟩
      · cases h
        exact ⟨hready _, fun hwaits => waits_markReady hwaits _⟩
  | dependencyCompleted container | setupCommandsCompleted container =>
      cases h
      exact ⟨hready _, fun hwaits => waits_markReady hwaits _⟩
  | imageBuildStarting container | imageBuildCompleted container | dependencyStarting container
  | dependencyStarted container | runningSetupCommand container command index total runIn
  | containerCreating container =>
      cases h
      exact ⟨hset _ _, fun hwaits => waits_setStage hwaits _ fun _ => Stage.noConfusion⟩
  | _ => cases h

/-! ### Events -/

theorem Sound.counting (h : d.Sound state screen) (created : List Str) (removing owed : Bool) :
    d.Sound { state with
      createdContainers := created, removingNetwork := removing, separatorOwed := owed }
      screen where
  ground := h.ground
  block hlive := ⟨(h.block hlive).toDrawn.relined rfl rfl rfl rfl, (h.block hlive).current⟩
  apart := h.apart
  countdown hshown :=
    ⟨(h.countdown hshown).col, (h.countdown hshown).room, (h.countdown hshown).width,
    (h.countdown hshown).shown⟩
  waits := h.waits

/-- A display that is not starting a task may be cleaning up, or not. -/
theorem Sound.cleaning (h : d.Sound state screen) (hfrozen : state.keepUpdatingStartup = false)
    (cleaning : Bool) :
    d.Sound { state with cleanupLive := cleaning } screen where
  ground := h.ground
  block hlive := by
    rw [hfrozen] at hlive
    cases hlive
  apart hlive := by
    rw [hfrozen] at hlive
    cases hlive
  countdown hshown :=
    ⟨(h.countdown hshown).col, (h.countdown hshown).room, (h.countdown hshown).width,
    (h.countdown hshown).shown⟩
  waits := h.waits

theorem Sound.frozen_of_cleaning (h : d.Sound state screen) (hcleaning : state.cleanupLive = true) :
    state.keepUpdatingStartup = false := by
  by_contra hlive
  rw [(h.apart (Bool.not_eq_false _ ▸ hlive)).2] at hcleaning
  cases hcleaning

theorem liveFrom_block (hlive : state.keepUpdatingStartup = true) (h : d.Block state screen) :
    liveFrom state screen = startOf (screen.row - state.paintedLines) := by
  unfold liveFrom liveRows
  rw [if_pos hlive]
  split
  · next hzero =>
      rw [hzero, Nat.sub_zero, Screen.cursor, h.col]
      rfl
  · rfl

/-- A block with some lines changed is painted again. -/
theorem goes_relined {state' : State} (hsound : d.Sound state screen)
    (hlive : state.keepUpdatingStartup = true) (hrelined : Relined state state')
    (hwaits : Waits state') :
    d.Goes raw state screen (repaintStartup d.rendering (d.console raw)
      (some d.columns) state') := by
  obtain ⟨hlength, lines, ready, owed, rfl⟩ := hrelined
  have hblock := hsound.block hlive
  refine goes_repaintStartup hsound hlive (hblock.toDrawn.relined hlength rfl rfl rfl) ?_ hwaits
    (hsound.apart hlive)
  exact (liveFrom_block hlive hblock).le

theorem repainted (state : State) :
    Repainted state (repaintStartup d.rendering (d.console raw) (some d.columns) state).1 := by
  unfold repaintStartup
  split
  · exact ⟨_, _, _, rfl⟩
  · dsimp only
    split <;> exact ⟨_, _, _, rfl⟩

theorem goes_startTask {state' : State} {line : Text} (h : Message line)
    (hsound : d.Sound state screen) (hunpainted : state'.paintedLines = 0)
    (hrendered : state'.lastRendered = none) (hshown : state'.cleanupShown = false)
    (hcleaning : state'.cleanupLive = false) (hlines : state'.lines = []) (printedATask : Bool) :
    d.Goes raw state screen (state', startTask (d.console raw) printedATask line) := by
  have hwrites : ∃ screen', Advances screen screen' ∧ screen'.reading = .ground ∧
      d.shows raw (startTask (d.console raw) printedATask line) screen =
        d.printed (line ++ [newline]) screen' := by
    cases printedATask with
    | true =>
        have hempty : Message [] := .nil
        obtain ⟨hadvances, hground, -⟩ := advances_line (d := d) hempty hsound.ground
        refine ⟨_, hadvances, hground, ?_⟩
        exact (shows_append _ _).trans ((congrArg _ (shows_print _)).trans (shows_print _))
    | false => exact ⟨screen, .refl _, hsound.ground, shows_print _⟩
  obtain ⟨screen', hadvances, hground, hwrites⟩ := hwrites
  obtain ⟨hadvances', hground', hcol⟩ := advances_line (d := d) h hground
  refine .of_advances ⟨?_, fun _ => ?_, fun _ => ⟨hshown, hcleaning⟩, fun h => ?_,
    fun line hline => ?_⟩ ?_ ?_
  · rw [hwrites]
    exact hground'
  · rw [hwrites]
    have hnot : state'.paintedLines ≠ 0 → False := fun h => h hunpainted
    refine ⟨⟨hcol, ?_, fun _ => hrendered, fun h => (hnot h).elim, fun text htext => ?_⟩,
      fun h => (hnot h).elim⟩
    · rw [hunpainted]
      exact Nat.zero_le _
    · rw [hrendered] at htext
      cases htext
  · rw [hshown] at h
    cases h
  · rw [hlines] at hline
    cases hline
  · rw [hwrites]
    exact hadvances.trans hadvances'
  · unfold liveRows
    rw [hunpainted, hshown]
    exact ite_self _

/-- The line on `stderr` has no live rows above it. -/
theorem goes_displaced {line : Text} (h : Message line) (hsound : d.Sound state screen)
    (hon : d.stderrOnScreen = true) :
    d.Goes raw state screen (displaced state, [(d.stderr raw).println .stderr line]) := by
  have hwrites : d.shows raw [(d.stderr raw).println .stderr line] screen =
      d.printed (line ++ [newline]) screen :=
    (shows_stderr _).trans (if_pos hon)
  obtain ⟨hadvances, hground, hcol⟩ := advances_line (d := d) h hsound.ground
  refine .of_advances ⟨?_, fun _ => ?_, fun hlive => ⟨rfl, (hsound.apart hlive).2⟩,
    fun h => (by cases h),
    hsound.waits⟩ ?_ ?_
  · rw [hwrites]
    exact hground
  · rw [hwrites]
    exact ⟨⟨hcol, Nat.zero_le _, fun _ => rfl, fun h => absurd rfl h, fun _ h => (by cases h)⟩,
      fun h => absurd rfl h⟩
  · rw [hwrites]
    exact hadvances
  · unfold liveRows
    exact ite_self _

theorem goes_paySeparator (hsound : d.Sound state screen)
    (hfrozen : state.keepUpdatingStartup = false) (hshown : state.cleanupShown = false) :
    d.Goes raw state screen (paySeparator (d.console raw) state) := by
  unfold paySeparator
  split
  · exact goes_line .nil hsound hfrozen hshown hsound.waits
  · exact .quiet (hsound.counting state.createdContainers state.removingNetwork false) rfl

theorem goes_summarize {summary : Text} (h : Row summary) (hsound : d.Sound state screen)
    (hfrozen : state.keepUpdatingStartup = false) :
    d.Goes raw state screen (summarize (d.console raw) (some d.columns) state summary) := by
  have hcleared : (clearCleanupLine (d.console raw) (some d.columns) state).1.keepUpdatingStartup =
      false ∧
      (clearCleanupLine (d.console raw) (some d.columns) state).1.cleanupShown = false := by
    unfold clearCleanupLine
    split
    · exact ⟨hfrozen, rfl⟩
    · next hshown => exact ⟨hfrozen, Bool.eq_false_of_not_eq_true hshown⟩
  have hclear : d.Goes raw state screen (clearCleanupLine (d.console raw) (some d.columns) state) :=
    goes_clearCleanupLine hsound hfrozen
  have hpay := hclear.andThen (goes_paySeparator hclear.sound hcleared.1 hcleared.2)
  exact hpay.andThen (goes_line h.message hpay.sound hcleared.1 hcleared.2 hpay.sound.waits)

/-- The engine's order, as far as the display relies on it. -/
def Timely (state : State) : TaskEvent → Prop
  | .taskGraphResolved _ => state.keepUpdatingStartup = true
  | .cleanupStarting _ | .cleanupFinished | .taskFinished .. | .taskFailed .. =>
      state.keepUpdatingStartup = false
  | _ => True

/-- A line on `stderr` is a message. -/
theorem stderr_line (console : Console) {event : TaskEvent} (h : event.Composed) {write : Write}
    (hwrite : console.printStderrClass event = some write) :
    ∃ line, Message line ∧ write = console.println .stderr line := by
  cases event with
  | error message =>
      have hmessage : Message message := by
        obtain ⟨value, rfl | rfl⟩ := h
        · exact message_ofStr value
        · exact (row_toText value).message
      refine ⟨_, ?_, (Option.some.inj hwrite).symm⟩
      exact (((row_own rfl).boldColored console .red).append (row_own rfl)).message.append hmessage
  | warning message =>
      obtain ⟨value, rfl⟩ := h
      refine ⟨_, ?_, (Option.some.inj hwrite).symm⟩
      exact ((((row_own rfl).boldColored console .yellow).append (row_own rfl)).append
        (row_toText value)).message
  | notice message =>
      obtain ⟨value, rfl⟩ := h
      exact ⟨_, (row_toText value).message, (Option.some.inj hwrite).symm⟩
  | _ => cases hwrite

theorem goes_stderr {write : Write} {line : Text} (h : Message line)
    (hwrite : write = (d.stderr raw).println .stderr line) (hsound : d.Sound state screen) :
    d.Goes raw state screen (andThen (state, [write]) fun state =>
      if d.stderrOnScreen then
        if state.cleanupLive then
          repaintCleanup d.rendering (d.console raw) (some d.columns) (displaced state)
        else (displaced state, [])
      else (state, [])) := by
  subst hwrite
  cases hon : d.stderrOnScreen with
  | true =>
      have hdisplaced : d.Goes raw state screen
          (displaced state, [(d.stderr raw).println .stderr line]) :=
        goes_displaced h hsound hon
      cases hcleaning : state.cleanupLive with
      | true =>
          have hrepainted := hdisplaced.andThen (goes_repaintCleanup hdisplaced.sound
            (hsound.frozen_of_cleaning hcleaning))
          unfold andThen at hrepainted ⊢
          simp only [hcleaning, if_true] at hrepainted ⊢
          exact hrepainted
      | false =>
          unfold andThen
          simp only [hcleaning, if_true, Bool.false_eq_true, if_false, List.append_nil]
          exact hdisplaced
  | false =>
      have hwrites : d.shows raw [(d.stderr raw).println .stderr line] screen = screen := by
        refine (shows_stderr _).trans (if_neg ?_)
        rw [hon]
        exact Bool.false_ne_true
      unfold andThen
      simp only [Bool.false_eq_true, if_false, List.append_nil]
      constructor
      · exact hwrites.symm ▸ hsound
      · exact hwrites.symm ▸ .refl _ _
      · exact hwrites.symm ▸ le_rfl

/-- Whatever is posted in time, the display keeps to its live rows. -/
theorem post_goes {event : TaskEvent} (hsound : d.Sound state screen) (htimely : Timely state event)
    (hcomposed : event.Composed) : d.Goes raw state screen (d.post raw state event) := by
  unfold post
  cases event with
  | notice message | warning message | error message =>
      obtain ⟨line, hline, hwrite⟩ := stderr_line (d.stderr raw) hcomposed rfl
      exact goes_stderr hline hwrite hsound
  | taskStarting task =>
      refine goes_startTask ?_ hsound rfl rfl rfl rfl rfl _
      exact (((row_own rfl).append (row_boldStr _ task)).append (row_own rfl)).message
  | prerequisitesOnly task =>
      exact goes_startTask (row_nothingMoreToDo _ task).message hsound rfl rfl rfl rfl rfl _
  | taskGraphResolved containers =>
      have hblock := hsound.block htimely
      refine goes_repaintStartup hsound rfl
        ⟨hblock.col, Nat.zero_le _, fun _ => rfl, fun h => absurd rfl h,
        fun _ h => (by cases h)⟩ ?_ ?_ (hsound.apart htimely)
      · rw [liveFrom_block htimely hblock]
        exact Terminal.startOf_le_startOf (Nat.sub_le _ _)
      · intro line hline remaining hstage
        obtain ⟨info, -, rfl⟩ := List.mem_map.mp hline
        cases hstage
  | taskFinished task exitCode duration =>
      exact goes_summarize (row_formatTaskSummary _ d.rendering task exitCode duration)
        hsound htimely
  | taskFailed task duration =>
      exact goes_summarize (row_formatTaskFailedSummary _ d.rendering task duration) hsound htimely
  | dependencyExitedUnexpectedly container exitCode =>
      dsimp only [Fancy.post, Console.printStderrClass]
      split
      · next hlive =>
          refine goes_relined hsound hlive ⟨List.length_modify .., _, _, _, rfl⟩ ?_
          exact waits_setStage hsound.waits container fun _ => Stage.noConfusion
      · next hfrozen =>
          have hfrozen := Bool.eq_false_of_not_eq_true hfrozen
          have hrow : Row (toText container ++ own " " ++
              (d.console raw).exitedUnexpectedly exitCode ++ own ".") :=
            (((row_toText container).append (row_own rfl)).append
              (row_exitedUnexpectedly _ exitCode)).append
              (row_own rfl)
          have hline : d.Goes raw state screen
              ({ state with cleanupShown := false }, [(d.console raw).println .progress
              (toText container ++ own " " ++
                (d.console raw).exitedUnexpectedly exitCode ++ own ".")]) :=
            goes_line hrow.message hsound hfrozen rfl hsound.waits
          unfold andThen
          dsimp only
          split
          · exact hline.andThen (goes_repaintCleanup hline.sound hfrozen)
          · rw [List.append_nil]
            exact hline
  | containerCreated container =>
      dsimp only [Fancy.post, Console.printStderrClass]
      have hcount : ∀ {result : State × List Write}, d.Goes raw state screen result →
          d.Goes raw state screen (andThen result fun state =>
            ({ state with createdContainers := State.insertName container state.createdContainers },
              [])) :=
        fun {result} h => h.andThen
          (.quiet (h.sound.counting _ result.1.removingNetwork result.1.separatorOwed) rfl)
      split
      · next hlive =>
          refine hcount (goes_relined hsound hlive ⟨List.length_map _, _, _, _, rfl⟩ ?_)
          exact waits_startWaiting hsound.waits _
      · exact hcount (.quiet hsound rfl)
  | runningTaskContainer container command =>
      dsimp only [Fancy.post, Console.printStderrClass]
      split
      · next hlive =>
          let running :=
            { state with separatorOwed := true }.setStage container (.runningCommand command)
          have hwaits : Waits running :=
            waits_setStage hsound.waits container fun _ => Stage.noConfusion
          have hpainted : d.Goes raw state screen
              (repaintStartup d.rendering (d.console raw) (some d.columns) running) :=
            goes_relined hsound hlive ⟨List.length_modify .., _, _, _, rfl⟩ hwaits
          obtain ⟨lines, width, text, hsame⟩ : Repainted running
            (repaintStartup d.rendering (d.console raw) (some d.columns) running).1 :=
              repainted running
          refine hpainted.andThen (goes_line .nil hpainted.sound rfl ?_ hpainted.sound.waits)
          rw [hsame]
          exact (hsound.apart hlive).1
      · exact .quiet (hsound.counting state.createdContainers state.removingNetwork true) rfl
  | runEnded task =>
      refine ⟨⟨hsound.ground, fun h => Bool.noConfusion h, fun h => Bool.noConfusion h,
        fun hshown => ?_, hsound.waits⟩,
        .refl _ _, ?_⟩
      · exact ⟨(hsound.countdown hshown).col, (hsound.countdown hshown).room,
          (hsound.countdown hshown).width,
          (hsound.countdown hshown).shown⟩
      · cases hlive : state.keepUpdatingStartup with
        | true =>
            have hnone : liveRows { state with keepUpdatingStartup := false } = 0 := by
              unfold liveRows
              rw [(hsound.apart hlive).1]
              rfl
            exact (liveFrom_le_cursor state screen).trans (if_pos hnone).symm.le
        | false =>
            unfold liveFrom liveRows
            rw [hlive]
            exact le_rfl
  | cleanupStarting cause =>
      exact (goes_repaintCleanup (hsound.cleaning htimely true) htimely).of_live rfl
  | containerRemoved container =>
      dsimp only [Fancy.post, Console.printStderrClass]
      have hcounted :=
        hsound.counting (state.createdContainers.filter (· ≠ container)) state.removingNetwork
        state.separatorOwed
      split
      · next hcleaning =>
          exact (goes_repaintCleanup hcounted (hsound.frozen_of_cleaning hcleaning)).of_live rfl
      · exact .quiet hcounted rfl
  | removingNetwork =>
      dsimp only [Fancy.post, Console.printStderrClass]
      have hcounted := hsound.counting state.createdContainers true state.separatorOwed
      split
      · next hcleaning =>
          exact (goes_repaintCleanup hcounted (hsound.frozen_of_cleaning hcleaning)).of_live rfl
      · exact .quiet hcounted rfl
  | cleanupFinished =>
      exact (goes_clearCleanupLine (hsound.cleaning htimely false) htimely).of_live rfl
  | _ =>
      dsimp only [Fancy.post, Console.printStderrClass]
      split
      · next hlive =>
          split
          · next hlines =>
              obtain ⟨hrelined, hwaits⟩ := startupLines_relined hlines
              exact goes_relined hsound hlive hrelined (hwaits hsound.waits)
          · exact .quiet hsound rfl
      · exact .quiet hsound rfl

end Display

end Ratect.Ui.Fancy
