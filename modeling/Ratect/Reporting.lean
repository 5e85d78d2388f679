import Ratect.CleanupOutcome
import Ratect.ExitCode
import Ratect.TaskOrder

/-! # The end of a run, and who reports it

The end of `run_task_internal`: how the execution was over is classified, a failure of its own is
posted and marked, a signal and a gone reader are told by a notice, cleanup runs, and the task ends
with its summary.  A `Conclusion` is one task's run to that end, its cleanup being one of
`Cleanup.Runs`.  `run_task` goes through the prerequisites to such conclusions: `Driver` is what it
meets outside, and `World` keeps what was posted and every conclusion so far.

`exit_codes_exact` says of every run what it exits with and that its failure reaches the user
once. -/

namespace Ratect

/-! ### How a task's run is over -/

/-- A failure of one of the run's steps. -/
structure StepFailure where
  error : AnyError
  infrastructure : error.Infrastructure

/-- What `run_container` meets: the container's exit, a gone reader of stdout, or a failure. -/
inductive Ran where
  | exited (exitCode : ℤ)
  | stdoutClosed
  | failed (failure : StepFailure)

/-- `run_future`: a refused start is tagged as the task container's own failed step. -/
def Ran.result (container : String) : Ran → Except AnyError Unit
  | .exited exitCode =>
      if exitCode ≠ 0 then .error (.new (.containerExitedNonZero exitCode)) else .ok ()
  | .stdoutClosed => .error (.new .stdoutClosed)
  | .failed failure =>
      if (failure.error.downcast Fault.containerStartFailed?).isSome then
        .error (.failed (.startFailed container) failure.error)
      else .error failure.error

/-- How `execution` ends: before the task's container runs, with it, the readiness gate's own
failure alongside if there was one, or by that failure while it still runs. -/
inductive ExecutionEnd where
  | startup (failure : StepFailure)
  | ran (run : Ran) (gate : Option StepFailure)
  | gateFailed (failure : StepFailure)

/-- A run that ended decides alone; the gate's failure beside it is forgiven. -/
def ExecutionEnd.result (container : String) : ExecutionEnd → Except AnyError Unit
  | .startup failure => .error failure.error
  | .ran run _ => run.result container
  | .gateFailed failure => .error failure.error

/-- What ends the run: its execution, or a signal. -/
inductive RunOver where
  | executed (execution : ExecutionEnd)
  | signalled (signal : TerminationSignal)

namespace RunOver

variable (ending : RunOver) (container : String)

/-- The `result` of the `select!`. -/
def result : Except AnyError Unit :=
  match ending with
  | executed execution => execution.result container
  | signalled signal => .error (.new (.taskInterrupted signal))

/-- `exit_code`: of a task's container that ran to completion. -/
def exitCode : Option ℤ :=
  match ending.result container with
  | .ok () => some 0
  | .error error => error.downcast Fault.exitCode?

/-- `interrupted_by`. -/
def interruptedBy : Option TerminationSignal :=
  match ending.result container with
  | .ok () => none
  | .error error => error.downcast Fault.signal?

/-- `stdout_closed`. -/
def stdoutClosed : Bool :=
  match ending.result container with
  | .ok () => false
  | .error error => (error.downcast Fault.stdoutClosed?).isSome

/-- As cleanup is told. -/
def runResult : RunResult :=
  match ending.exitCode container with
  | some exitCode => if exitCode = 0 then .passed else .exited exitCode.natAbs
  | none => if (ending.interruptedBy container).isSome then .interrupted else .failed

end RunOver

/-! ### What is posted -/

/-- What the engine posts of a run's end. -/
inductive Report where
  | runEnded (task : String)
  | failure (error : AnyError) (hint : Bool)
  | interrupted (signal : TerminationSignal) (cleaning : Bool)
  | stdoutClosed (cleaning : Bool)
  | cleanup (post : Post)
  | taskFinished (task : String) (exitCode : ℤ)
  | taskFailed (task : String)
deriving DecidableEq, Repr

/-- The text that is shown, where it is not the event logger's. -/
def Report.text (debug : AnyError → String) (runId : String) : Report → Option String
  | failure error hint =>
      some (debug error ++ if hint then "\n\nYou can re-run the task with " ++
        "--no-cleanup-after-failure to leave its containers in place and diagnose the failure."
          else "")
  | interrupted signal cleaning =>
      some (if cleaning then
          s!"{signal.endedRun}; cleaning up. {signal.sendAgain} to force-remove what's left, and " ++
            "Ctrl+C after that to stop cleaning up."
        else s!"{signal.endedRun}; not cleaning up.")
  | stdoutClosed cleaning =>
      some (if cleaning then
          "Stdout closed; cleaning up. Press Ctrl+C to force-remove what's left, and Ctrl+C after " ++
            "that to stop cleaning up."
        else "Stdout closed; not cleaning up.")
  | cleanup post => some (post.text runId)
  | _ => none

/-- Whether a report is of that failure, as it comes back from the engine. -/
def Report.isOf (error : AnyError) : Report → Bool
  | failure reported _ => reported = error ∨ error = .failureReported reported
  | interrupted signal _ => error = .new (.taskInterrupted signal)
  | stdoutClosed _ => error = .new .stdoutClosed
  | cleanup (.leftBehind _ _ _) =>
      match error with
      | .new (.cleanupFailed _ _) => true
      | _ => false
  | taskFinished _ exitCode => exitCode ≠ 0 ∧ error = .new (.containerExitedNonZero exitCode)
  | _ => false

/-- One task's run that started, to its end: how it was over, and its cleanup. -/
structure Conclusion where
  task : String
  ending : RunOver
  runEnd : RunEnd
  cleanup : Cleanup
  classified : runEnd.result = ending.runResult runEnd.root
  runs : Cleanup.Runs runEnd cleanup
  finished : cleanup.phase = .finished

namespace Conclusion

variable (r : Conclusion)

/-- A failure that nothing else reports is posted, with the hint if there is a container to keep
for a look, and marked. -/
def marked : Except AnyError Unit × List Report :=
  match r.ending.result r.runEnd.root with
  | .ok () => (.ok (), [])
  | .error error =>
      if (r.ending.exitCode r.runEnd.root).isNone && !alreadyReported error then
        (.error (.failureReported error),
          [.failure error (r.runEnd.cleanupAfterFailure && isNotReady error)])
      else (.error error, [])

/-- The notice of what ended the run. -/
def notices : List Report :=
  match r.ending.interruptedBy r.runEnd.root with
  | some signal => [.interrupted signal r.runEnd.shouldCleanup]
  | none =>
      if r.ending.stdoutClosed r.runEnd.root then [.stdoutClosed r.runEnd.shouldCleanup] else []

/-- What cleanup posts, in order. -/
def cleanupReports : List Report :=
  r.cleanup.log.filterMap fun entry =>
    match entry with
    | .post post => some (.cleanup post)
    | _ => none

/-- What `run_task_internal` returns: a cleanup failure replaces only an `Ok`. -/
def result : Except AnyError Unit :=
  match r.marked.1 with
  | .ok () =>
      if r.cleanup.cleanupFailed then
        .error (.new (.cleanupFailed r.task r.runEnd.runId)) else .ok ()
  | .error error => .error error

/-- The task's last event. -/
def summary : List Report :=
  let cleanupFailed := match r.result with
    | .ok () => false
    | .error error => (error.downcast Fault.cleanupFailed?).isSome
  match (r.ending.exitCode r.runEnd.root).filter fun _ => !cleanupFailed with
  | some exitCode => [.taskFinished r.task exitCode]
  | none =>
      if (r.ending.interruptedBy r.runEnd.root).isNone && !r.ending.stdoutClosed r.runEnd.root then
        [.taskFailed r.task]
      else []

/-- The task's container ran to completion with that code. -/
def Exited (exitCode : ℤ) : Prop := ∃ gate, r.ending = .executed (.ran (.exited exitCode) gate)

/-- Everything posted, from the end of the run on. -/
def reports : List Report :=
  .runEnded r.task :: (r.marked.2 ++ r.notices ++ r.cleanupReports ++ r.summary)

end Conclusion

/-! ### The run of a task and its prerequisites -/

/-- What `run_task` meets outside.  An attempt at a task's own run is refused before it starts, or
comes to a conclusion. -/
structure Driver (σ : Type) where
  count : σ → ℕ × σ
  lastSignal : σ → TerminationSignal
  evaluate : String → σ → Except String Unit × σ
  checkImageOverrides : Except String Unit
  attempt : (name : String) → (topLevel : Bool) → σ →
    (String ⊕ { r : Conclusion // r.task = name ∧ r.runEnd.topLevel = topLevel }) × σ
  checkImageTags : σ → Except String Unit

/-- What a run leaves: what was posted, every conclusion, and the last failure of one. -/
structure World (σ : Type) where
  outside : σ
  reports : List Report
  history : List Conclusion
  failure : Option AnyError

/-- A run not begun. -/
def World.new {σ : Type} (outside : σ) : World σ := ⟨outside, [], [], none⟩

namespace Driver

variable {σ : Type} (driver : Driver σ) (debug : AnyError → String)

/-- The task's own run: what it posts and how it ends is kept. -/
def execute (name : String) (topLevel : Bool) (w : World σ) : Except String Unit × World σ :=
  match driver.attempt name topLevel w.outside with
  | (.inl message, outside) => (.error message, { w with outside := outside })
  | (.inr r, outside) =>
      let w : World σ :=
        { w with
          outside := outside
          reports := w.reports ++ r.1.reports
          history := w.history ++ [r.1] }
      match r.1.result with
      | .ok () => (.ok (), w)
      | .error error => (.error (debug error), { w with failure := some error })

/-- The driver, as the run of the prerequisites meets it. -/
def host : Host (World σ) where
  count := fun w => ((driver.count w.outside).1, { w with outside := (driver.count w.outside).2 })
  lastSignal := fun w => driver.lastSignal w.outside
  evaluate := fun name w =>
    ((driver.evaluate name w.outside).1, { w with outside := (driver.evaluate name w.outside).2 })
  checkImageOverrides := driver.checkImageOverrides
  execute := driver.execute debug
  checkImageTags := fun w => driver.checkImageTags w.outside

end Driver

/-- The error that a run returns, given the last failure of a task's own run. -/
def TaskError.toAnyError (failure : Option AnyError) : TaskError → AnyError
  | interrupted signal => .new (.taskInterrupted signal)
  | body message => failure.getD (.new (.other message))
  | error => .new (.other error.message)

/-! ### One conclusion -/

/-- The ways in which a run is over, with what the engine reads off each. -/
inductive Verdict (ending : RunOver) (container : String) : Prop
  | passed (hresult : ending.result container = .ok ())
  | exited (exitCode : ℤ) (gate : Option StepFailure) (hcode : exitCode ≠ 0)
      (hending : ending = .executed (.ran (.exited exitCode) gate))
      (hresult : ending.result container = .error (.new (.containerExitedNonZero exitCode)))
  | interrupted (signal : TerminationSignal)
      (hresult : ending.result container = .error (.new (.taskInterrupted signal)))
  | stdoutClosed (hresult : ending.result container = .error (.new .stdoutClosed))
  | failed (error : AnyError) (hinfrastructure : error.Infrastructure)
      (hresult : ending.result container = .error error)

theorem verdict (ending : RunOver) (container : String) : Verdict ending container := by
  cases ending with
  | signalled signal => exact .interrupted signal rfl
  | executed execution =>
      cases execution with
      | startup failure => exact .failed failure.error failure.infrastructure rfl
      | gateFailed failure => exact .failed failure.error failure.infrastructure rfl
      | ran run gate =>
          cases run with
          | exited exitCode =>
              by_cases hcode : exitCode = 0
              · exact .passed (by simp [RunOver.result, ExecutionEnd.result, Ran.result, hcode])
              · exact .exited exitCode gate hcode rfl
                  (by simp [RunOver.result, ExecutionEnd.result, Ran.result, hcode])
          | stdoutClosed => exact .stdoutClosed rfl
          | failed failure =>
              by_cases hstart : (failure.error.downcast Fault.containerStartFailed?).isSome
              · refine .failed (.failed (.startFailed container) failure.error)
                  failure.infrastructure ?_
                simp only [RunOver.result, ExecutionEnd.result, Ran.result, if_pos hstart]
              · refine .failed failure.error failure.infrastructure ?_
                simp only [RunOver.result, ExecutionEnd.result, Ran.result, if_neg hstart]

/-- A cleanup that keeps everything posts no failure. -/
theorem Cleanup.runs_kept {e : RunEnd} {c : Cleanup} (hkeep : e.shouldCleanup = false)
    (h : Cleanup.Runs e c) :
    (c.phase = .creates ∨ c.phase = .finished) ∧ c.cleanupFailed = false ∧
      ∀ left abandoned refusals, .post (.leftBehind left abandoned refusals) ∉ c.log := by
  refine h.invariant
    (P := fun c => (c.phase = .creates ∨ c.phase = .finished) ∧ c.cleanupFailed = false ∧
      ∀ left abandoned refusals, .post (.leftBehind left abandoned refusals) ∉ c.log) ?_ ?_
  · exact ⟨.inl rfl, rfl, by simp [Cleanup.start]⟩
  · rintro c event c' - ⟨hphase, hfailed, hlog⟩ hstep
    have hbegin : ∀ c : Cleanup, c.cleanupFailed = false →
        (∀ left abandoned refusals, .post (.leftBehind left abandoned refusals) ∉ c.log) →
        ((Cleanup.beginRemovals e c).phase = .creates ∨
          (Cleanup.beginRemovals e c).phase = .finished) ∧
        (Cleanup.beginRemovals e c).cleanupFailed = false ∧
        ∀ left abandoned refusals, .post (.leftBehind left abandoned refusals) ∉
          (Cleanup.beginRemovals e c).log := by
      intro c hfailed hlog
      unfold Cleanup.beginRemovals
      simp only [hkeep, Bool.false_eq_true, if_false]
      refine ⟨by simp, hfailed, fun left abandoned refusals hmem => ?_⟩
      unfold Cleanup.warnings Cleanup.keptNotices at hmem
      rcases List.mem_append.mp hmem with hmem | hmem
      · rcases List.mem_append.mp hmem with hmem | hmem
        · exact hlog _ _ _ hmem
        · split_ifs at hmem <;> simp at hmem
      · dsimp only at hmem
        split_ifs at hmem <;> simp at hmem
    cases Cleanup.step_cases hstep with
    | signal _ => exact ⟨hphase, hfailed, by simpa using hlog⟩
    | count _ => exact ⟨hphase, hfailed, by simpa using hlog⟩
    | makes _ _ _ => exact ⟨hphase, hfailed, hlog⟩
    | makesNetwork _ => exact ⟨hphase, hfailed, hlog⟩
    | registered _ _ _ _ _ _ => exact ⟨hphase, hfailed, hlog⟩
    | refused _ _ _ => exact ⟨hphase, hfailed, hlog⟩
    | prepared _ _ => exact ⟨hphase, hfailed, hlog⟩
    | begun _ _ => exact hbegin c hfailed hlog
    | begunEarly _ _ _ => exact hbegin c hfailed hlog
    | batch hp => simp [hp] at hphase
    | loopEnded hp _ => simp [hp] at hphase
    | loopCut hp _ => simp [hp] at hphase
    | stopped hp _ => simp [hp] at hphase
    | drained hp _ => simp [hp] at hphase
    | force hp => simp [hp] at hphase
    | forceAnswered hp _ => simp [hp] at hphase
    | forcedDone hp _ => simp [hp] at hphase
    | forcedAbandoned hp _ _ => simp [hp] at hphase
    | networkAnswered hp => simp [hp] at hphase
    | escalated hp _ => simp [hp] at hphase
    | networkAbandoned hp _ => simp [hp] at hphase
    | finish hp => simp [hp] at hphase

/-- The entry that reports what a cleanup left behind. -/
def Entry.isLeftBehind : Entry → Bool
  | post (.leftBehind _ _ _) => true
  | _ => false

/-- The report of what a cleanup left behind. -/
def Report.isLeftBehind : Report → Bool
  | cleanup (.leftBehind _ _ _) => true
  | _ => false

theorem Entry.isReport_of_isLeftBehind {entry : Entry} (h : entry.isLeftBehind = true) :
    entry.isReport = true := by
  cases entry with
  | post post => cases post <;> first | rfl | cases h
  | _ => cases h

namespace Conclusion

variable {r : Conclusion}

theorem mem_cleanupReports {report : Report} (h : report ∈ r.cleanupReports) :
    ∃ post, report = .cleanup post := by
  obtain ⟨entry, hentry, heq⟩ := List.mem_filterMap.mp h
  cases entry with
  | post post => exact ⟨post, (Option.some.inj heq).symm⟩
  | _ => cases heq

/-- A cleanup logs what it left behind once if it failed, and not otherwise. -/
theorem countP_log :
    r.cleanup.log.countP Entry.isLeftBehind = if r.cleanup.cleanupFailed then 1 else 0 := by
  cases hclean : r.runEnd.shouldCleanup with
  | false =>
      obtain ⟨-, hfailed, hlog⟩ := Cleanup.runs_kept hclean r.runs
      rw [hfailed, if_neg Bool.false_ne_true, List.countP_eq_zero]
      intro entry hentry
      cases entry with
      | post post =>
          cases post with
          | leftBehind left abandoned refusals => exact absurd hentry (hlog _ _ _)
          | _ => exact Bool.false_ne_true
      | _ => exact Bool.false_ne_true
  | true =>
      have houtcome := Cleanup.runs_outcome hclean r.runs
      have hreports := houtcome.reports
      rw [if_pos r.finished] at hreports
      have hfilter : r.cleanup.log.countP Entry.isLeftBehind =
          (r.cleanup.log.filter Entry.isReport).countP Entry.isLeftBehind := by
        rw [List.countP_filter]
        refine List.countP_congr fun entry _ => ?_
        simpa using fun h => Entry.isReport_of_isLeftBehind h
      rw [hfilter, hreports]
      unfold Cleanup.finalPosts
      have habandoned := houtcome.abandoned r.finished
      cases hfailed : r.cleanup.cleanupFailed with
      | true => rfl
      | false =>
          have hnot : r.cleanup.abandoned = false := by simpa [hfailed] using habandoned
          rw [hnot]
          simp only [Bool.or_self, Bool.false_eq_true, if_false]
          split_ifs <;> rfl

/-- A cleanup posts what it left behind once if it failed, and not otherwise. -/
theorem countP_isLeftBehind :
    r.cleanupReports.countP Report.isLeftBehind = if r.cleanup.cleanupFailed then 1 else 0 := by
  rw [← countP_log]
  unfold cleanupReports
  rw [List.countP_filterMap]
  refine List.countP_congr fun entry _ => ?_
  cases entry with
  | post post => cases post <;> simp [Report.isLeftBehind, Entry.isLeftBehind]
  | _ => simp [Entry.isLeftBehind]

/-- What cleanup posts is of a failure only if that is the cleanup's own. -/
theorem countP_cleanupReports (error : AnyError) :
    r.cleanupReports.countP (Report.isOf error) =
      match error with
      | .new (.cleanupFailed _ _) => if r.cleanup.cleanupFailed then 1 else 0
      | _ => 0 := by
  by_cases herror : ∃ task run, error = .new (.cleanupFailed task run)
  · obtain ⟨task, run, rfl⟩ := herror
    dsimp only
    rw [← countP_isLeftBehind]
    refine List.countP_congr fun report hreport => ?_
    obtain ⟨post, rfl⟩ := mem_cleanupReports hreport
    cases post <;> simp [Report.isOf, Report.isLeftBehind]
  · have hzero : r.cleanupReports.countP (Report.isOf error) = 0 := by
      rw [List.countP_eq_zero]
      intro report hreport
      obtain ⟨post, rfl⟩ := mem_cleanupReports hreport
      cases post with
      | leftBehind left abandoned refusals =>
          intro hof
          simp only [Report.isOf] at hof
          split at hof
          · exact herror ⟨_, _, rfl⟩
          · cases hof
      | _ => simp [Report.isOf]
    rw [hzero]
    split
    · exact absurd ⟨_, _, rfl⟩ herror
    · rfl

/-- What each verdict comes to: the error returned, and what is posted beside the cleanup's own. -/
inductive Concluded (r : Conclusion) : Prop
  | passed (hresult : r.result = .ok ())
      (hreports : r.reports = .runEnded r.task :: (r.cleanupReports ++ [.taskFinished r.task 0]))
  | cleanupFailed (hexit : r.ending.result r.runEnd.root = .ok ())
      (hfailed : r.cleanup.cleanupFailed = true)
      (hresult : r.result = .error (.new (.cleanupFailed r.task r.runEnd.runId)))
      (hreports : r.reports = .runEnded r.task :: (r.cleanupReports ++ [.taskFailed r.task]))
  | exited (exitCode : ℤ) (hcode : exitCode ≠ 0) (hexited : r.Exited exitCode)
      (hresult : r.result = .error (.new (.containerExitedNonZero exitCode)))
      (hreports : r.reports = .runEnded r.task ::
        (r.cleanupReports ++ [.taskFinished r.task exitCode]))
  | interrupted (signal : TerminationSignal)
      (hresult : r.result = .error (.new (.taskInterrupted signal)))
      (hreports : r.reports =
        .runEnded r.task :: .interrupted signal r.runEnd.shouldCleanup :: r.cleanupReports)
  | stdoutClosed (hresult : r.result = .error (.new .stdoutClosed))
      (hreports : r.reports =
        .runEnded r.task :: .stdoutClosed r.runEnd.shouldCleanup :: r.cleanupReports)
  | failed (error : AnyError) (hinfrastructure : error.Infrastructure) (hint : Bool)
      (hresult : r.result = .error (.failureReported error))
      (hreports : r.reports =
        .runEnded r.task :: .failure error hint :: (r.cleanupReports ++ [.taskFailed r.task]))

theorem concluded (r : Conclusion) : Concluded r := by
  cases verdict r.ending r.runEnd.root with
  | passed hended =>
      have hexit : r.ending.exitCode r.runEnd.root = some 0 := by simp [RunOver.exitCode, hended]
      have hsignal : r.ending.interruptedBy r.runEnd.root = none := by
        simp [RunOver.interruptedBy, hended]
      have hstdout : r.ending.stdoutClosed r.runEnd.root = false := by
        simp [RunOver.stdoutClosed, hended]
      cases hfailed : r.cleanup.cleanupFailed with
      | true =>
          have hresult : r.result = .error (.new (.cleanupFailed r.task r.runEnd.runId)) := by
            simp [result, marked, hended, hfailed]
          refine .cleanupFailed hended hfailed hresult ?_
          simp [reports, marked, notices, summary, hended, hexit, hsignal, hstdout, hresult,
            AnyError.downcast, Fault.cleanupFailed?]
      | false =>
          have hresult : r.result = .ok () := by simp [result, marked, hended, hfailed]
          refine .passed hresult ?_
          simp [reports, marked, notices, summary, hended, hexit, hsignal, hstdout, hresult,
            Option.filter]
  | exited exitCode gate hcode hending hended =>
      have hexit : r.ending.exitCode r.runEnd.root = some exitCode := by
        simp [RunOver.exitCode, hended, AnyError.downcast, Fault.exitCode?]
      have hsignal : r.ending.interruptedBy r.runEnd.root = none := by
        simp [RunOver.interruptedBy, hended, AnyError.downcast, Fault.signal?]
      have hstdout : r.ending.stdoutClosed r.runEnd.root = false := by
        simp [RunOver.stdoutClosed, hended, AnyError.downcast, Fault.stdoutClosed?]
      have hresult : r.result = .error (.new (.containerExitedNonZero exitCode)) := by
        simp [result, marked, hended, hexit]
      refine .exited exitCode hcode ⟨gate, hending⟩ hresult ?_
      simp [reports, marked, notices, summary, hended, hexit, hsignal, hstdout, hresult,
        AnyError.downcast, Fault.cleanupFailed?, Option.filter]
  | interrupted signal hended =>
      have hexit : r.ending.exitCode r.runEnd.root = none := by
        simp [RunOver.exitCode, hended, AnyError.downcast, Fault.exitCode?]
      have hsignal : r.ending.interruptedBy r.runEnd.root = some signal := by
        simp [RunOver.interruptedBy, hended, AnyError.downcast, Fault.signal?]
      have hreported : alreadyReported (.new (.taskInterrupted signal)) = true := rfl
      refine .interrupted signal (by simp [result, marked, hended, hreported]) ?_
      simp [reports, marked, notices, summary, hended, hexit, hsignal, hreported]
  | stdoutClosed hended =>
      have hexit : r.ending.exitCode r.runEnd.root = none := by
        simp [RunOver.exitCode, hended, AnyError.downcast, Fault.exitCode?]
      have hsignal : r.ending.interruptedBy r.runEnd.root = none := by
        simp [RunOver.interruptedBy, hended, AnyError.downcast, Fault.signal?]
      have hstdout : r.ending.stdoutClosed r.runEnd.root = true := by
        simp [RunOver.stdoutClosed, hended, AnyError.downcast, Fault.stdoutClosed?]
      have hreported : alreadyReported (.new .stdoutClosed) = true := rfl
      refine .stdoutClosed (by simp [result, marked, hended, hreported]) ?_
      simp [reports, marked, notices, summary, hended, hexit, hsignal, hstdout, hreported]
  | failed error hinfrastructure hended =>
      obtain ⟨hcode, hsignal, hstdout, -, -⟩ := hinfrastructure.no_outcome
      have hexit : r.ending.exitCode r.runEnd.root = none := by
        simp [RunOver.exitCode, hended, hcode]
      have hsignal' : r.ending.interruptedBy r.runEnd.root = none := by
        simp [RunOver.interruptedBy, hended, hsignal]
      have hstdout' : r.ending.stdoutClosed r.runEnd.root = false := by
        simp [RunOver.stdoutClosed, hended, hstdout]
      have hreported := hinfrastructure.not_alreadyReported
      refine .failed error hinfrastructure (r.runEnd.cleanupAfterFailure && isNotReady error)
        (by simp [result, marked, hended, hexit, hreported]) ?_
      simp [reports, marked, notices, summary, hended, hexit, hsignal', hstdout', hreported]

/-- A task that passed has posted nothing of a failure. -/
theorem countP_reports_of_passed (h : r.result = .ok ()) (error : AnyError) :
    r.reports.countP (Report.isOf error) = 0 := by
  cases concluded r with
  | passed hresult hreports =>
      have hcleanup : r.cleanupReports.countP (Report.isOf error) = 0 := by
        rw [countP_cleanupReports]
        split
        · have hfailed : r.cleanup.cleanupFailed = false := by
            unfold result at h
            split at h
            · split_ifs at h with hfailed
              exact Bool.eq_false_iff.mpr hfailed
            · cases h
          simp [hfailed]
        · rfl
      rw [hreports, List.countP_cons, List.countP_append, hcleanup]
      simp [Report.isOf]
  | cleanupFailed _ _ hresult _ => simp [hresult] at h
  | exited _ _ _ hresult _ => simp [hresult] at h
  | interrupted _ hresult _ => simp [hresult] at h
  | stdoutClosed hresult _ => simp [hresult] at h
  | failed _ _ _ hresult _ => simp [hresult] at h

/-- The failure of a task's own run is posted once, and marked as reported by its type. -/
theorem reported_once {error : AnyError} (h : r.result = .error error) :
    alreadyReported error = true ∧ r.reports.countP (Report.isOf error) = 1 := by
  cases concluded r with
  | passed hresult _ => simp [hresult] at h
  | cleanupFailed _ hfailed hresult hreports =>
      obtain rfl := Except.error.inj (hresult.symm.trans h)
      refine ⟨rfl, ?_⟩
      rw [hreports, List.countP_cons, List.countP_append, countP_cleanupReports]
      simp [Report.isOf, hfailed]
  | exited exitCode hcode _ hresult hreports =>
      obtain rfl := Except.error.inj (hresult.symm.trans h)
      refine ⟨rfl, ?_⟩
      rw [hreports, List.countP_cons, List.countP_append, countP_cleanupReports]
      simp [Report.isOf, hcode]
  | interrupted signal hresult hreports =>
      obtain rfl := Except.error.inj (hresult.symm.trans h)
      refine ⟨rfl, ?_⟩
      rw [hreports, List.countP_cons, List.countP_cons, countP_cleanupReports]
      simp [Report.isOf]
  | stdoutClosed hresult hreports =>
      obtain rfl := Except.error.inj (hresult.symm.trans h)
      refine ⟨rfl, ?_⟩
      rw [hreports, List.countP_cons, List.countP_cons, countP_cleanupReports]
      simp [Report.isOf]
  | failed error' _ hint hresult hreports =>
      obtain rfl := Except.error.inj (hresult.symm.trans h)
      refine ⟨rfl, ?_⟩
      rw [hreports, List.countP_cons, List.countP_cons, List.countP_append, countP_cleanupReports]
      simp [Report.isOf]

end Conclusion

/-! ### What a conclusion exits with -/

theorem asU8_eq_zero_iff (exitCode : ℤ) : asU8 exitCode = 0 ↔ 256 ∣ exitCode := by
  unfold asU8
  omega

theorem asU8_of_le {exitCode : ℤ} (hlow : 1 ≤ exitCode) (hhigh : exitCode ≤ 255) :
    (asU8 exitCode : ℤ) = exitCode := by
  unfold asU8
  omega

/-- A failure that the engine reported exits as what it is, which is nothing special. -/
theorem forError_failureReported {error : AnyError} (h : error.Infrastructure) :
    forError (.failureReported error) = ratectFailed := by
  obtain ⟨hcode, hsignal, hstdout, -, -⟩ := h.no_outcome
  simp [forError, AnyError.downcastReported, hcode, hsignal, hstdout]

namespace Conclusion

variable {r : Conclusion}

/-- A non-zero exit code is what the run returns, whatever its cleanup did. -/
theorem result_of_exited {exitCode : ℤ} (h : r.Exited exitCode) (hcode : exitCode ≠ 0) :
    r.result = .error (.new (.containerExitedNonZero exitCode)) := by
  obtain ⟨gate, hending⟩ := h
  simp [result, marked, hending, RunOver.result, RunOver.exitCode, ExecutionEnd.result, Ran.result,
    hcode, AnyError.downcast, Fault.exitCode?]

/-- A cleanup failure is returned in the place of success. -/
theorem result_of_cleanupFailed (h : r.Exited 0) (hfailed : r.cleanup.cleanupFailed = true) :
    r.result = .error (.new (.cleanupFailed r.task r.runEnd.runId)) := by
  obtain ⟨gate, hending⟩ := h
  simp [result, marked, hending, RunOver.result, ExecutionEnd.result, Ran.result, hfailed]

theorem result_of_signalled {signal : TerminationSignal} (h : r.ending = .signalled signal) :
    r.result = .error (.new (.taskInterrupted signal)) := by
  simp [result, marked, h, RunOver.result, alreadyReported, AnyError.downcast, Fault.signal?]

/-- A failure exits `0` for one reason only: the exit code is cut to its last eight bits. -/
theorem forError_eq_zero_iff {error : AnyError} (h : r.result = .error error) :
    forError error = 0 ↔ ∃ exitCode, r.Exited exitCode ∧ exitCode ≠ 0 ∧ 256 ∣ exitCode := by
  constructor
  · intro hzero
    cases concluded r with
    | passed hresult _ => simp [hresult] at h
    | cleanupFailed _ _ hresult _ =>
        obtain rfl := Except.error.inj (hresult.symm.trans h)
        simp [forError, AnyError.downcastReported, AnyError.downcast,
          Fault.exitCode?, Fault.signal?, Fault.stdoutClosed?, ratectFailed] at hzero
    | exited exitCode hcode hexited hresult _ =>
        obtain rfl := Except.error.inj (hresult.symm.trans h)
        exact ⟨exitCode, hexited, hcode, (asU8_eq_zero_iff exitCode).mp hzero⟩
    | interrupted signal hresult _ =>
        obtain rfl := Except.error.inj (hresult.symm.trans h)
        have hcode : signal.exitCode = 0 := hzero
        unfold TerminationSignal.exitCode at hcode
        omega
    | stdoutClosed hresult _ =>
        obtain rfl := Except.error.inj (hresult.symm.trans h)
        simp [forError, AnyError.downcastReported, AnyError.downcast,
          Fault.exitCode?, Fault.signal?, Fault.stdoutClosed?, stdoutClosedExitCode] at hzero
    | failed error' hinfrastructure _ hresult _ =>
        obtain rfl := Except.error.inj (hresult.symm.trans h)
        rw [forError_failureReported hinfrastructure] at hzero
        cases hzero
  · rintro ⟨exitCode, hexited, hcode, hdvd⟩
    obtain rfl := Except.error.inj ((result_of_exited hexited hcode).symm.trans h)
    exact (asU8_eq_zero_iff exitCode).mpr hdvd

end Conclusion

/-! ### Every run -/

section run

variable {σ : Type} {driver : Driver σ} {debug : AnyError → String}

/-- Nothing has failed so far: every conclusion passed, and what is posted is theirs. -/
structure Untroubled (s : RunState (World σ)) : Prop where
  passed : ∀ r ∈ s.world.history, r.result = .ok ()
  reports : s.world.reports = s.world.history.flatMap Conclusion.reports
  failure : s.world.failure = none
  notices : s.notices = []

/-- What a failed run leaves: a failure before any run of its own, the notice of a signal that
keeps a task from starting, or the failed conclusion of a task. -/
inductive Told (s : RunState (World σ)) : TaskError → Prop
  | unposted {error : TaskError} (h : Untroubled s) (message : String)
      (herror : error.toAnyError none = .new (.other message)) : Told s error
  | signalled (signal : TerminationSignal) (next : String)
      (h : Untroubled { s with notices := [] }) (hnotices : s.notices = [signal.notStarting next]) :
      Told s (.interrupted signal)
  | concluded (message : String) (error : AnyError) (history : List Conclusion) (r : Conclusion)
      (hhistory : s.world.history = history ++ [r]) (hpassed : ∀ r ∈ history, r.result = .ok ())
      (hresult : r.result = .error error)
      (hreports : s.world.reports = s.world.history.flatMap Conclusion.reports)
      (hfailure : s.world.failure = some error) (hnotices : s.notices = []) : Told s (.body message)

/-- An outcome that tells of a failure, if there is one. -/
def Tells (out : Outcome (World σ)) : Prop :=
  match out.1 with
  | .ok () => Untroubled out.2
  | .error error => Told out.2 error

theorem Tells.andThen {x : Outcome (World σ)} {f : RunState (World σ) → Outcome (World σ)}
    (hx : Tells x) (hf : ∀ s, Untroubled s → Tells (f s)) : Tells (andThen x f) := by
  obtain ⟨e | u, s⟩ := x
  · exact hx
  · exact hf s hx

theorem stopIfSignalled_tells (baseline : ℕ) (next : String) {s : RunState (World σ)}
    (h : Untroubled s) : Tells (stopIfSignalled (driver.host debug) baseline next s) := by
  unfold stopIfSignalled
  dsimp only
  split_ifs
  · exact ⟨h.passed, h.reports, h.failure, h.notices⟩
  · refine .signalled _ next ⟨h.passed, h.reports, h.failure, rfl⟩ ?_
    dsimp only
    rw [h.notices]
    rfl

/-- A step that posts nothing. -/
theorem ownStep_tells {step : World σ → Except String Unit × World σ}
    (hstep : ∀ w, (step w).2 = { w with outside := (step w).2.outside }) {s : RunState (World σ)}
    (h : Untroubled s) : Tells (ownStep step s) := by
  have hw := hstep s.world
  unfold ownStep
  split
  · next world heq =>
      rw [heq] at hw
      dsimp only at hw
      show Untroubled { s with world := world }
      rw [hw]
      exact ⟨h.passed, h.reports, h.failure, h.notices⟩
  · next message world heq =>
      rw [heq] at hw
      dsimp only at hw
      have hsame : Untroubled { s with world := world } := by
        rw [hw]
        exact ⟨h.passed, h.reports, h.failure, h.notices⟩
      exact .unposted hsame message rfl

theorem execute_tells (name : String) (topLevel : Bool) {s : RunState (World σ)}
    (h : Untroubled s) : Tells (ownStep (driver.execute debug name topLevel) s) := by
  unfold ownStep Driver.execute
  cases hattempt : driver.attempt name topLevel s.world.outside with
  | mk attempt outside =>
      cases attempt with
      | inl message =>
          exact .unposted ⟨h.passed, h.reports, h.failure, h.notices⟩ message rfl
      | inr r =>
          have hreports : s.world.reports ++ r.1.reports =
              (s.world.history ++ [r.1]).flatMap Conclusion.reports := by
            rw [h.reports, List.flatMap_append, List.flatMap_singleton]
          dsimp only
          cases hresult : r.1.result with
          | ok u =>
              refine ⟨fun other hother => ?_, hreports, h.failure, h.notices⟩
              rcases List.mem_append.mp hother with hother | hother
              · exact h.passed other hother
              · rw [List.mem_singleton.mp hother]
                exact hresult
          | error error =>
              exact .concluded _ error s.world.history r.1 rfl h.passed hresult
                hreports rfl h.notices

theorem Untroubled.books {s s' : RunState (World σ)} (h : Untroubled s)
    (hworld : s'.world = s.world) (hnotices : s'.notices = s.notices) : Untroubled s' :=
  ⟨hworld ▸ h.passed, hworld ▸ h.reports, hworld ▸ h.failure, hnotices ▸ h.notices⟩

/-- The engine's own books say nothing of a failure. -/
theorem Tells.books {out : Outcome (World σ)} {s : RunState (World σ)} (h : Tells out)
    (hworld : s.world = out.2.world) (hnotices : s.notices = out.2.notices) : Tells (out.1, s) := by
  obtain ⟨e | u, s'⟩ := out
  · dsimp only at hworld hnotices
    cases h with
    | unposted h message herror => exact .unposted (h.books hworld hnotices) message herror
    | signalled signal next h hn =>
        exact .signalled signal next (h.books hworld rfl) (hnotices.trans hn)
    | concluded message error history r hhistory hpassed hresult hreports hfailure hn =>
        exact .concluded message error history r (hworld ▸ hhistory) hpassed hresult
          (hworld ▸ hreports) (hworld ▸ hfailure) (hnotices.trans hn)
  · exact Untroubled.books h hworld hnotices

theorem ownPart_tells (name : String) (task : Task) (topLevel : Bool) (baseline : ℕ)
    {s : RunState (World σ)} (h : Untroubled s) :
    Tells (ownPart (driver.host debug) name task topLevel baseline s) := by
  unfold ownPart
  refine Tells.andThen (ownStep_tells (fun w => rfl) h) fun s h => ?_
  split
  · exact h
  · refine Tells.andThen (ownStep_tells (fun w => rfl) h) fun s h => ?_
    exact Tells.andThen (stopIfSignalled_tells baseline name h) fun s h =>
      execute_tells name topLevel h

theorem runPrerequisites_tells {runScoped : String → RunState (World σ) → Outcome (World σ)}
    (hrun : ∀ name s, Untroubled s → Tells (runScoped name s)) (baseline : ℕ) (names : List String)
    {s : RunState (World σ)} (h : Untroubled s) :
    Tells (runPrerequisites (driver.host debug) runScoped baseline names s) := by
  induction names generalizing s with
  | nil => exact h
  | cons name names ih =>
      unfold runPrerequisites
      refine Tells.andThen ?_ fun s h => Tells.andThen (hrun name s h) fun s h => ih h
      split_ifs
      · exact h
      · exact stopIfSignalled_tells baseline name h

/-- A check of the configuration: whatever it fails with, it is no signal. -/
def Unsignalled {α : Type} (x : Except TaskError α) : Prop :=
  ∀ signal, x ≠ .error (.interrupted signal)

theorem Unsignalled.bind {α β : Type} {x : Except TaskError α} {f : α → Except TaskError β}
    (hx : Unsignalled x) (hf : ∀ a, Unsignalled (f a)) : Unsignalled (x >>= f) := by
  cases x with
  | error e =>
      intro signal heq
      cases heq
      exact hx signal rfl
  | ok a => exact hf a

theorem findTask_unsignalled (tasks : Tasks) (name : String) (requested : Bool) :
    Unsignalled (findTask tasks name requested) := by
  intro signal heq
  unfold findTask at heq
  split at heq
  · cases heq
  · dsimp only at heq
    split_ifs at heq <;> cases heq

theorem expand_unsignalled (regex : RegexCrate) (tasks : Tasks) (patterns : List String) :
    Unsignalled (expandPrerequisiteWildcards regex tasks patterns) := by
  induction patterns with
  | nil => exact fun signal heq => by cases heq
  | cons pattern patterns ih =>
      have hentry : Unsignalled (expandEntry regex tasks pattern) := by
        unfold expandEntry
        split_ifs
        · refine Unsignalled.bind ?_ fun _ => fun signal heq => by cases heq
          intro signal heq
          unfold wildcardToRegex at heq
          dsimp only at heq
          split at heq <;> cases heq
        · exact fun signal heq => by cases heq
      exact hentry.bind fun _ => ih.bind fun _ signal heq => by cases heq

theorem resolveAll_unsignalled (tasks : Tasks) (path names : List String) :
    Unsignalled (resolveAll tasks path names) := by
  induction names with
  | nil => exact fun signal heq => by cases heq
  | cons name names ih =>
      refine (findTask_unsignalled tasks name false).bind fun _ => ?_
      split_ifs
      · exact fun signal heq => by cases heq
      · exact ih.bind fun _ signal heq => by cases heq

theorem visit_unsignalled (regex : RegexCrate) (tasks : Tasks) (fuel : ℕ)
    (path checked : List String) (task : Task) :
    Unsignalled (visit regex tasks fuel path checked task) := by
  induction fuel generalizing path checked task with
  | zero => exact fun signal heq => by cases heq
  | succ fuel ih =>
      have hall : ∀ (resolved : List (String × Task)) (checked : List String),
          Unsignalled (visitAll (visit regex tasks fuel) path checked resolved) := by
        intro resolved
        induction resolved with
        | nil => exact fun checked signal heq => by cases heq
        | cons entry resolved ihall =>
            intro checked
            unfold visitAll
            split_ifs
            · exact ihall checked
            · exact (ih _ _ _).bind fun _ => ihall _
      unfold visit
      split
      · exact fun signal heq => by cases heq
      · refine (expand_unsignalled regex tasks _).bind fun names => ?_
        exact (resolveAll_unsignalled tasks path names).bind fun resolved => hall resolved checked

theorem checkPrerequisites_unsignalled (regex : RegexCrate) (tasks : Tasks) (name : String)
    (skip : Bool) : Unsignalled (checkPrerequisites regex tasks name skip) := by
  unfold checkPrerequisites
  refine (findTask_unsignalled tasks name true).bind fun task => ?_
  split_ifs
  · exact fun signal heq => by cases heq
  · exact (visit_unsignalled regex tasks _ _ _ _).bind fun _ signal heq => by cases heq

/-- A check that failed is not posted. -/
theorem Told.of_check {α : Type} {x : Except TaskError α} {e : TaskError} {s : RunState (World σ)}
    (hx : Unsignalled x) (heq : x = .error e) (h : Untroubled s) : Told s e := by
  subst heq
  cases e with
  | interrupted signal => exact absurd rfl (hx signal)
  | body message => exact .unposted h message rfl
  | _ => exact .unposted h _ rfl

theorem runTaskInternal_tells (regex : RegexCrate) (tasks : Tasks) (skip : Bool)
    {runScoped : String → RunState (World σ) → Outcome (World σ)}
    (hrun : ∀ name s, Untroubled s → Tells (runScoped name s)) (name : String) (topLevel : Bool)
    {s : RunState (World σ)} (h : Untroubled s) :
    Tells (runTaskInternal regex tasks skip (driver.host debug) runScoped name topLevel s) := by
  unfold runTaskInternal
  split
  · next e heq => exact Told.of_check (findTask_unsignalled tasks name topLevel) heq h
  · next task _ =>
      have hcount : Untroubled { s with world := ((driver.host debug).count s.world).2 } :=
        ⟨h.passed, h.reports, h.failure, h.notices⟩
      dsimp only
      split
      · next e heq =>
          refine Told.of_check ?_ heq hcount
          split_ifs
          · exact fun signal heq => by cases heq
          · split
            · exact fun signal heq => by cases heq
            · exact expand_unsignalled regex tasks _
      · next names _ =>
          refine Tells.andThen (runPrerequisites_tells hrun _ names hcount) fun s h => ?_
          exact (ownPart_tells name task topLevel _ h).books rfl rfl

theorem runTaskScoped_tells (regex : RegexCrate) (tasks : Tasks) (skip : Bool) (fuel : ℕ)
    (name : String) (topLevel : Bool) {s : RunState (World σ)} (h : Untroubled s) :
    Tells (runTaskScoped regex tasks skip (driver.host debug) fuel name topLevel s) := by
  induction fuel generalizing name topLevel s with
  | zero => exact .unposted h _ rfl
  | succ fuel ih =>
      rw [runTaskScoped]
      split_ifs
      · exact h
      · exact .unposted h _ rfl
      · have hentered : Untroubled { s with inProgress := s.inProgress ++ [name] } :=
          h.books rfl rfl
        have hinner : Tells (runTaskInternal regex tasks skip (driver.host debug)
            (fun prerequisite =>
              runTaskScoped regex tasks skip (driver.host debug) fuel prerequisite false)
            name topLevel { s with inProgress := s.inProgress ++ [name] }) :=
          runTaskInternal_tells regex tasks skip (fun name s h => ih name false h)
            name topLevel hentered
        unfold leaveScope
        dsimp only
        generalize runTaskInternal regex tasks skip (driver.host debug) _ name
          topLevel _ = out at hinner ⊢
        obtain ⟨e | u, s'⟩ := out
        · exact hinner.books rfl rfl
        · exact Untroubled.books hinner rfl rfl

theorem runTask_tells (regex : RegexCrate) (tasks : Tasks) (skip : Bool) (name : String)
    (outside : σ) :
    Tells (runTask regex tasks skip (driver.host debug) name (World.new outside)) := by
  have hstart : Untroubled (RunState.initial (World.new outside)) :=
    ⟨by simp [RunState.initial, World.new], rfl, rfl, rfl⟩
  unfold runTask
  split
  · next e heq =>
      exact Told.of_check (checkPrerequisites_unsignalled regex tasks name skip) heq hstart
  · refine Tells.andThen (runTaskScoped_tells regex tasks skip _ name true hstart) fun s h => ?_
    exact ownStep_tells (fun w => rfl) h

/-- The error that a run returns. -/
def runError (out : Outcome (World σ)) : Option AnyError :=
  match out.1 with
  | .ok () => none
  | .error error => some (error.toAnyError out.2.world.failure)

/-- How often the engine posted a failure; every notice of `stop_if_signalled` is of a signal. -/
def timesPosted (out : Outcome (World σ)) (error : AnyError) : ℕ :=
  out.2.world.reports.countP (Report.isOf error) +
    if (error.downcast Fault.signal?).isSome then out.2.notices.length else 0

/-- What is promised of a run's exit code and of the reporting of its failure, with contexts added
to the error on its way to `main`. -/
structure Accountable (contexts : List String) (out : Outcome (World σ)) : Prop where
  nonzero : ∀ error, runError out = some error → forError (error.withContexts contexts) ≠ 0
  exited : ∀ r ∈ out.2.world.history, ∀ exitCode,
    r.Exited exitCode → 1 ≤ exitCode → exitCode ≤ 255 →
    ∃ error, runError out = some error ∧ (forError (error.withContexts contexts) : ℤ) = exitCode
  interrupted : ∀ r ∈ out.2.world.history, ∀ signal, r.ending = .signalled signal →
    ∃ error, runError out = some error ∧
      forError (error.withContexts contexts) = 128 + signal.number
  notStarted : ∀ signal, out.1 = .error (.interrupted signal) →
    ∃ error, runError out = some error ∧
      forError (error.withContexts contexts) = 128 + signal.number
  cleanup : ∀ r ∈ out.2.world.history, r.Exited 0 → r.cleanup.cleanupFailed = true →
    ∃ error, runError out = some error ∧ forError (error.withContexts contexts) = ratectFailed
  once : ∀ error, runError out = some error →
    timesPosted out error = if alreadyReported (error.withContexts contexts) then 1 else 0

/-- The conclusions that passed have posted nothing of a failure. -/
theorem countP_flatMap_reports {history : List Conclusion} (h : ∀ r ∈ history, r.result = .ok ())
    (error : AnyError) : (history.flatMap Conclusion.reports).countP (Report.isOf error) = 0 := by
  rw [List.countP_flatMap]
  refine List.sum_eq_zero fun n hn => ?_
  obtain ⟨r, hr, rfl⟩ := List.mem_map.mp hn
  exact Conclusion.countP_reports_of_passed (h r hr) error

/-- A run in which every conclusion passed has none with a failure to account for. -/
theorem no_failure_of_passed {history : List Conclusion} (h : ∀ r ∈ history, r.result = .ok ()) :
    ∀ r ∈ history, (∀ exitCode, r.Exited exitCode → exitCode = 0) ∧
      (∀ signal, r.ending ≠ .signalled signal) ∧
      ¬ (r.Exited 0 ∧ r.cleanup.cleanupFailed = true) := by
  intro r hr
  have hresult := h r hr
  refine ⟨fun exitCode hexited => ?_, fun signal hsignal => ?_, fun hcleanup => ?_⟩
  · by_contra hcode
    simp [Conclusion.result_of_exited hexited hcode] at hresult
  · simp [Conclusion.result_of_signalled hsignal] at hresult
  · simp [Conclusion.result_of_cleanupFailed hcleanup.1 hcleanup.2] at hresult

/-- Where every conclusion passed, the promise is about the error alone. -/
theorem Accountable.of_passed {contexts : List String} {out : Outcome (World σ)}
    (hpassed : ∀ r ∈ out.2.world.history, r.result = .ok ())
    (hnonzero : ∀ error, runError out = some error → forError error ≠ 0)
    (hnotStarted : ∀ signal, out.1 = .error (.interrupted signal) →
      ∃ error, runError out = some error ∧ forError error = 128 + signal.number)
    (honce : ∀ error, runError out = some error →
      timesPosted out error = if alreadyReported error then 1 else 0) :
    Accountable contexts out := by
  have hnone := no_failure_of_passed hpassed
  refine ⟨?_, ?_, ?_, ?_, ?_, ?_⟩
  · intro error herror
    rw [AnyError.forError_withContexts]
    exact hnonzero error herror
  · intro r hr exitCode hexited hlow
    have hzero := (hnone r hr).1 exitCode hexited
    omega
  · intro r hr signal hsignal
    exact absurd hsignal ((hnone r hr).2.1 signal)
  · intro signal hsignal
    obtain ⟨error, herror, hcode⟩ := hnotStarted signal hsignal
    exact ⟨error, herror, (AnyError.forError_withContexts error contexts).trans hcode⟩
  · intro r hr hexited hfailed
    exact absurd ⟨hexited, hfailed⟩ (hnone r hr).2.2
  · intro error herror
    rw [AnyError.alreadyReported_withContexts]
    exact honce error herror

/-- A run that ended with a failed conclusion. -/
theorem accountable_concluded_iff {contexts : List String} {out : Outcome (World σ)}
    {error : AnyError} {history : List Conclusion} {r : Conclusion}
    (hhistory : out.2.world.history = history ++ [r]) (hpassed : ∀ r ∈ history, r.result = .ok ())
    (hresult : r.result = .error error) (herror : runError out = some error)
    (hout : ∀ signal, out.1 ≠ .error (.interrupted signal))
    (hreports : out.2.world.reports = out.2.world.history.flatMap Conclusion.reports)
    (hnotices : out.2.notices = []) :
    Accountable contexts out ↔
      ∀ r ∈ out.2.world.history, ∀ exitCode, r.Exited exitCode → exitCode = 0 ∨
        ¬ 256 ∣ exitCode := by
  have hnone := no_failure_of_passed hpassed
  constructor
  · intro h other hother exitCode hexited
    by_contra hnot
    rw [not_or, not_not] at hnot
    have hzero := (Conclusion.forError_eq_zero_iff hresult).mpr
    rw [hhistory] at hother
    rcases List.mem_append.mp hother with hother | hother
    · exact hnot.1 ((hnone other hother).1 exitCode hexited)
    · rw [List.mem_singleton.mp hother] at hexited
      refine h.nonzero error herror ?_
      rw [AnyError.forError_withContexts]
      exact hzero ⟨exitCode, hexited, hnot.1, hnot.2⟩
  · intro hcodes
    have hmem : r ∈ out.2.world.history := by simp [hhistory]
    -- Whatever is asked of a conclusion in the history is asked of the last one.
    have hlast : ∀ other ∈ out.2.world.history, other.result ≠ .ok () → other = r := by
      intro other hother hfailed
      rw [hhistory] at hother
      rcases List.mem_append.mp hother with hother | hother
      · exact absurd (hpassed other hother) hfailed
      · exact List.mem_singleton.mp hother
    have hreturned : ∀ other ∈ out.2.world.history, ∀ error', other.result = .error error' →
        runError out = some error' := by
      intro other hother error' hresult'
      obtain rfl := hlast other hother (by simp [hresult'])
      rw [herror, Except.error.inj (hresult.symm.trans hresult')]
    refine ⟨?_, ?_, ?_, fun signal h => absurd h (hout signal), ?_, ?_⟩
    · intro error' herror'
      obtain rfl := Option.some.inj (herror.symm.trans herror')
      rw [AnyError.forError_withContexts, Ne, Conclusion.forError_eq_zero_iff hresult]
      rintro ⟨exitCode, hexited, hcode, hdvd⟩
      rcases hcodes r hmem exitCode hexited with hzero | hnot
      · exact hcode hzero
      · exact hnot hdvd
    · intro other hother exitCode hexited hlow hhigh
      refine ⟨_, hreturned other hother _ (Conclusion.result_of_exited hexited (by omega)), ?_⟩
      rw [AnyError.forError_withContexts]
      exact asU8_of_le hlow hhigh
    · intro other hother signal hsignal
      refine ⟨_, hreturned other hother _ (Conclusion.result_of_signalled hsignal), ?_⟩
      rw [AnyError.forError_withContexts]
      rfl
    · intro other hother hexited hfailed
      refine ⟨_, hreturned other hother _ (Conclusion.result_of_cleanupFailed hexited hfailed), ?_⟩
      rw [AnyError.forError_withContexts]
      rfl
    · intro error' herror'
      obtain rfl := Option.some.inj (herror.symm.trans herror')
      obtain ⟨hreported, honce⟩ := Conclusion.reported_once hresult
      rw [AnyError.alreadyReported_withContexts, hreported, if_pos rfl]
      unfold timesPosted
      rw [hreports, hhistory, List.flatMap_append, List.countP_append,
        countP_flatMap_reports hpassed error, List.flatMap_singleton, honce, hnotices]
      simp

/-- Every run exits with what is promised and has its failure reported once, except one in which a
task's container exits with a non-zero multiple of 256: that failure exits `0`. -/
theorem exit_codes_exact (driver : Driver σ) (debug : AnyError → String) (regex : RegexCrate)
    (tasks : Tasks) (skip : Bool) (name : String) (outside : σ) (contexts : List String) :
    Accountable contexts (runTask regex tasks skip (driver.host debug) name (World.new outside)) ↔
      ∀ r ∈ (runTask regex tasks skip (driver.host debug) name (World.new outside)).2.world.history,
        ∀ exitCode, r.Exited exitCode → exitCode = 0 ∨ ¬ 256 ∣ exitCode := by
  have htells : Tells (runTask regex tasks skip (driver.host debug) name (World.new outside)) :=
    runTask_tells regex tasks skip name outside
  generalize runTask regex tasks skip (driver.host debug) name (World.new outside) = out at htells ⊢
  -- Where every conclusion passed, both sides hold.
  have hboth : (∀ r ∈ out.2.world.history, r.result = .ok ()) → Accountable contexts out →
      (Accountable contexts out ↔ ∀ r ∈ out.2.world.history, ∀ exitCode, r.Exited exitCode →
        exitCode = 0 ∨ ¬ 256 ∣ exitCode) := fun hpassed h =>
    ⟨fun _ r hr exitCode hexited => .inl ((no_failure_of_passed hpassed r hr).1 exitCode hexited),
      fun _ => h⟩
  obtain ⟨te | u, s⟩ := out
  · cases htells with
    | unposted h message herror =>
        have herror' : runError (.error te, s) = some (.new (.other message)) := by
          unfold runError
          dsimp only
          rw [h.failure, herror]
        refine hboth h.passed (Accountable.of_passed h.passed ?_ ?_ ?_)
        · intro error hrun
          obtain rfl := Option.some.inj (herror'.symm.trans hrun)
          show ratectFailed ≠ 0
          decide
        · intro signal hsignal
          obtain rfl := Except.error.inj hsignal
          cases herror
        · intro error hrun
          obtain rfl := Option.some.inj (herror'.symm.trans hrun)
          unfold timesPosted
          rw [h.reports, countP_flatMap_reports h.passed]
          rfl
    | signalled signal next h hnotices =>
        refine hboth h.passed (Accountable.of_passed h.passed ?_ ?_ ?_)
        · intro error hrun
          obtain rfl := Option.some.inj hrun
          show signal.exitCode ≠ 0
          unfold TerminationSignal.exitCode
          omega
        · intro signal' hsignal
          obtain rfl := TaskError.interrupted.inj (Except.error.inj hsignal)
          exact ⟨_, rfl, rfl⟩
        · intro error hrun
          obtain rfl := Option.some.inj hrun
          unfold timesPosted
          rw [h.reports, countP_flatMap_reports h.passed, hnotices]
          rfl
    | concluded message error history r hhistory hpassed hresult hreports hfailure hnotices =>
        refine accountable_concluded_iff hhistory hpassed hresult ?_ ?_ hreports hnotices
        · unfold runError
          dsimp only
          rw [hfailure]
          rfl
        · intro signal hsignal
          cases hsignal
  · refine hboth htells.passed (Accountable.of_passed htells.passed ?_ ?_ ?_)
    · intro error hrun
      cases hrun
    · intro signal hsignal
      cases hsignal
    · intro error hrun
      cases hrun

end run

/-! ### An exit code of 256 -/

theorem bare_acyclic (name : String) :
    ¬ Relation.TransGen (PostOrder.Edge (Graph.get [])) name name := by
  intro h
  obtain ⟨_, h, _⟩ := Relation.TransGen.head'_iff.mp h
  cases h

theorem bare_preparing (name : String) (h : (name, Stage.preparing) ∈ []) :
    name ∈ ([] : List Removal).map Removal.name := by
  cases h

theorem bare_finished (h : RunResult.exited 256 = .passed) :
    ([] : List (String × Stage)) = [] ∧ false = false := by
  cases h

/-- A run on a network of somebody else's, with nothing left of it. -/
def bareEnd (topLevel : Bool) : RunEnd where
  runId := "r"
  graph := []
  root := "toolbox"
  existingNetwork := some "host"
  networkName := some "host"
  networkSent := false
  created := []
  pending := []
  result := .exited 256
  interrupt := .new
  recording := []
  cleanupAfterSuccess := true
  cleanupAfterFailure := true
  topLevel := topLevel
  acyclic := bare_acyclic
  names := List.nodup_nil
  ids := List.nodup_nil
  preparing := bare_preparing
  finished := bare_finished

/-- Its cleanup goes through every phase and removes nothing. -/
def bareCleanup (topLevel : Bool) : Cleanup :=
  (Transition.run (Cleanup.step (bareEnd topLevel)) (Cleanup.start (bareEnd topLevel))
    [.proceed, .proceed, .proceed, .proceed, .proceed]).getD (Cleanup.start (bareEnd topLevel))

/-- The task's container exits with 256. -/
def exitOf256 (name : String) (topLevel : Bool) : Conclusion where
  task := name
  ending := .executed (.ran (.exited 256) none)
  runEnd := bareEnd topLevel
  cleanup := bareCleanup topLevel
  classified := rfl
  runs := by
    have hrun : Transition.run (Cleanup.step (bareEnd topLevel)) (Cleanup.start (bareEnd topLevel))
        [.proceed, .proceed, .proceed, .proceed, .proceed] = some (bareCleanup topLevel) := by
      cases topLevel <;> rfl
    exact Transition.reachable_of_run .start hrun
  finished := by cases topLevel <;> rfl

/-- Every task's container exits with 256. -/
def driverOf256 : Driver Unit where
  count w := (0, w)
  lastSignal _ := .interrupt
  evaluate _ w := (.ok (), w)
  checkImageOverrides := .ok ()
  attempt name topLevel w := (.inr ⟨exitOf256 name topLevel, rfl, rfl⟩, w)
  checkImageTags _ := .ok ()

/-- A run of `lint:rust` then. -/
def runOf256 : Outcome (World Unit) :=
  runTask globRegex ciTasks false (driverOf256.host fun _ => "") "lint:rust" (World.new ())

/-- The run fails, and the process exits `0`. -/
theorem exit_of_256_lost :
    (∃ error, runError runOf256 = some error ∧ forError error = 0) ∧ ¬ Accountable [] runOf256 := by
  have herror : runError runOf256 = some (.new (.containerExitedNonZero 256)) := by decide
  refine ⟨⟨_, herror, rfl⟩, fun h => ?_⟩
  exact h.nonzero _ herror rfl

end Ratect
